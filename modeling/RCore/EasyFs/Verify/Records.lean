import RCore.EasyFs.Layout

/-!
# Records in blocks

Round trips of the packed records: a disk inode written to a slot is read back from it and leaves
the other slots of the block alone; a directory entry is the record its 32 bytes denote, and an
entry made for a name of at most 27 bytes without NUL gives that name back.
-/

namespace RCore

/-- A slice inside what was just spliced in. -/
theorem Bytes.slice_splice_inside {n : Nat} (b : Bytes n) {off p len : Nat} {src : List UInt8}
    (hp : p + len ≤ src.length) (hn : off + src.length ≤ n) :
    (b.splice off src).slice (off + p) len = (src.drop p).take len := by
  apply List.ext_getElem
  · simp only [Bytes.slice_length, List.length_take, List.length_drop]
    omega
  · intro k hk hk'
    rw [Bytes.slice_length] at hk
    simp only [Bytes.slice, List.getElem_map, List.getElem_range, List.getElem_take,
      List.getElem_drop]
    rw [Bytes.byte_splice, if_pos (by omega), show off + p + k - off = p + k by omega,
      List.getD_eq_getElem _ _ (by omega)]

namespace EasyFs

open Prog

/-! ## Disk inodes -/

namespace DiskInode

theorem words_length (di : DiskInode) : di.words.length = 33 := by
  simp [words]

theorem words_direct (di : DiskInode) {k : Nat} (hk : k < 28) :
    di.words.getD (2 + k) 0 = di.direct[k] := by
  have hlen : k < di.direct.toList.length := by simpa using hk
  unfold words
  rw [List.append_assoc, List.getD_append_right _ _ _ _ (by simp),
    List.getD_append _ _ _ _ (by simpa using hlen)]
  simp [hk]

theorem words_tail (di : DiskInode) (k : Nat) :
    di.words.getD (30 + k) 0 = [di.indirect1, di.indirect2, di.nlink].getD k 0 := by
  have hlen : ([di.inodeId, di.size] ++ di.direct.toList).length = 30 := by simp
  unfold words
  rw [List.getD_append_right _ _ _ _ (by rw [hlen]; omega), hlen, Nat.add_sub_cancel_left]

@[simp] theorem bytes_length (di : DiskInode) : di.bytes.length = 133 := by
  have hlen := length_flatMap_packed (fun w : UInt32 => leEncode_length 4 w.toNat) di.words
  rw [words_length] at hlen
  rw [bytes, List.length_append, hlen, List.length_singleton]

theorem field_encode (di : DiskInode) (b : Block) {off k : Nat} (hoff : off + 136 ≤ 512)
    (hk : k < 33) : field (di.encode b off) off k = di.words.getD k 0 := by
  have hkw : k < di.words.length := by rw [words_length]; exact hk
  unfold field Bytes.word encode
  rw [Bytes.slice_splice_inside b (by rw [bytes_length]; omega)
    (by rw [bytes_length]; show off + 133 ≤ 512; omega)]
  unfold bytes
  rw [take_drop_flatMap_packed (fun w : UInt32 => leEncode_length 4 w.toNat) _ _ hkw,
    leDecode_leEncode, List.getD_eq_getElem _ _ hkw,
    show di.words[k].toNat % 256 ^ 4 = di.words[k].toNat from Nat.mod_eq_of_lt (UInt32.toNat_lt _),
    UInt32.ofNat_toNat]

theorem ofByte_toByte (t : DiskInodeType) : DiskInodeType.ofByte t.toByte = t := by
  cases t <;> rfl

/-- A record written to a slot is read back from it. -/
theorem decode_encode_same (di : DiskInode) (b : Block) {off : Nat} (hoff : off + 136 ≤ 512) :
    decode (di.encode b off) off = di := by
  have htype : (di.encode b off).byte (off + 132) = di.type.toByte := by
    unfold encode
    rw [Bytes.byte_splice, if_pos (by rw [bytes_length]; exact ⟨by omega, by omega, by
      show off + 132 < 512; omega⟩)]
    have hlen := length_flatMap_packed (fun w : UInt32 => leEncode_length 4 w.toNat) di.words
    rw [words_length] at hlen
    unfold bytes
    rw [Nat.add_sub_cancel_left, List.getD_append_right _ _ _ _ (by rw [hlen]), hlen]
    rfl
  have hdir : (Vector.ofFn fun k : Fin inodeDirectCount => field (di.encode b off) off (2 + k)) =
      di.direct := by
    apply Vector.ext
    intro k hk
    have hk' : k < 28 := hk
    rw [Vector.getElem_ofFn, field_encode di b hoff (show 2 + k < 33 by omega), words_direct di hk']
  have h1 := words_tail di 0
  have h2 := words_tail di 1
  have h3 := words_tail di 2
  unfold decode
  rw [hdir, htype, ofByte_toByte, field_encode di b hoff (by omega),
    field_encode di b hoff (by omega), field_encode di b hoff (by omega),
    field_encode di b hoff (by omega), field_encode di b hoff (by omega), h1, h2, h3]
  rfl

/-- A record written to a slot leaves the records of the other slots alone. -/
theorem decode_encode_disjoint (di : DiskInode) (b : Block) {off off' : Nat}
    (h : off + 136 ≤ off' ∨ off' + 136 ≤ off) :
    decode (di.encode b off) off' = decode b off' := by
  have hfield : ∀ k, k < 33 → field (di.encode b off) off' k = field b off' k := by
    intro k hk
    unfold field encode
    rw [Bytes.word_splice_disjoint 4 b (by rw [bytes_length]; omega)]
  have hbyte : (di.encode b off).byte (off' + 132) = b.byte (off' + 132) := by
    unfold encode
    rw [Bytes.byte_splice_of_lt b (by rw [bytes_length]; omega)]
  have hdir : (Vector.ofFn fun k : Fin inodeDirectCount => field (di.encode b off) off' (2 + k)) =
      Vector.ofFn fun k : Fin inodeDirectCount => field b off' (2 + k) := by
    apply Vector.ext
    intro k hk
    have hk' : k < 28 := hk
    rw [Vector.getElem_ofFn, Vector.getElem_ofFn, hfield _ (show 2 + k < 33 by omega)]
  unfold decode
  rw [hbyte, hdir, hfield 0 (by omega), hfield 1 (by omega), hfield 30 (by omega),
    hfield 31 (by omega), hfield 32 (by omega)]

end DiskInode

/-! ## Directory entries -/

namespace DirEntry

@[simp] theorem asBytes_length (e : DirEntry) : e.asBytes.length = 32 := by
  simp [asBytes]

theorem ofBytes_asBytes (e : DirEntry) : ofBytes e.asBytes = e := by
  have hlen : e.name.toList.length = 28 := by simp
  have hname : (Vector.ofFn fun k : Fin (nameLengthLimit + 1) => e.asBytes.getD k 0) = e.name := by
    apply Vector.ext
    intro k hk
    have hk' : k < e.name.toList.length := by rw [hlen]; exact hk
    rw [Vector.getElem_ofFn]
    unfold asBytes
    rw [List.getD_append _ _ _ _ hk', List.getD_eq_getElem _ _ hk', Vector.getElem_toList]
  have hnum : ((e.asBytes.drop (nameLengthLimit + 1)).take 4) = leEncode 4 e.inodeNumber.toNat := by
    unfold asBytes
    rw [List.drop_left' hlen]
    exact List.take_of_length_le (by rw [leEncode_length])
  unfold ofBytes
  rw [hname, hnum, leDecode_leEncode,
    show e.inodeNumber.toNat % 256 ^ 4 = e.inodeNumber.toNat from
      Nat.mod_eq_of_lt (UInt32.toNat_lt _), UInt32.ofNat_toNat]

/-- A name that fits a directory entry: at most 27 bytes, none of them NUL. -/
def Proper (name : String) : Prop :=
  (nameBytes name).length ≤ nameLengthLimit ∧ (0 : UInt8) ∉ nameBytes name

instance (name : String) : Decidable (Proper name) :=
  inferInstanceAs (Decidable (_ ∧ _))

/-- The entry `DirEntry::new` makes. -/
def made (name : String) (inodeNumber : UInt32) : DirEntry where
  name := Vector.ofFn fun k => (nameBytes name).getD k 0
  inodeNumber := inodeNumber

theorem made_name_toList {name : String} (h : (nameBytes name).length ≤ 28) (id : UInt32) :
    (made name id).name.toList =
      nameBytes name ++ List.replicate (28 - (nameBytes name).length) 0 := by
  apply List.ext_getElem
  · simp only [Vector.length_toList, List.length_append, List.length_replicate]
    show 28 = _
    omega
  · intro k hk hk'
    rw [Vector.getElem_toList]
    unfold made
    rw [Vector.getElem_ofFn]
    by_cases hlt : k < (nameBytes name).length
    · rw [List.getElem_append_left hlt, List.getD_eq_getElem _ _ hlt]
    · rw [List.getElem_append_right (by omega), List.getElem_replicate]
      exact List.getD_eq_default _ _ (show (nameBytes name).length ≤ k by omega)

theorem fromUTF8?_nameBytes (name : String) :
    String.fromUTF8? ⟨(nameBytes name).toArray⟩ = some name := by
  have hb : (⟨(nameBytes name).toArray⟩ : ByteArray) = name.toByteArray := by
    simp [nameBytes]
  rw [hb]
  unfold String.fromUTF8?
  rw [dif_pos name.isValidUTF8]
  rfl

/-- The entry made for a proper name gives the name back. -/
theorem getName_made {name : String} (h : Proper name) (id : UInt32) :
    (made name id).getName = some name := by
  obtain ⟨hlen, hnul⟩ := h
  have hlen' : (nameBytes name).length ≤ 27 := hlen
  have hlist := made_name_toList (by omega : (nameBytes name).length ≤ 28) id
  have hfind : (made name id).name.toList.findIdx? (· = 0) = some (nameBytes name).length := by
    have hnone : (nameBytes name).findIdx? (· = 0) = none := by
      rw [List.findIdx?_eq_none_iff]
      intro x hx
      exact decide_eq_false fun h => hnul (h ▸ hx)
    rw [hlist, List.findIdx?_append, hnone, show 28 - (nameBytes name).length =
      (27 - (nameBytes name).length) + 1 by omega, List.replicate_succ, List.findIdx?_cons]
    simp
  unfold getName
  rw [hfind]
  simp only
  rw [hlist, List.take_left, fromUTF8?_nameBytes]

end DirEntry

end EasyFs

end RCore
