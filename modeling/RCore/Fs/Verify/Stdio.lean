import RCore.Fs.Stdio
import RCore.Mm.Verify.UserString

/-!
# Text on the console

`Stdout::write` takes every slice for text of its own, and the slices are cut at the ends of pages. So a text is printed
exactly if no page edge lies within a character; what is printed are then its characters, which are its bytes if it is ASCII.
-/

namespace RCore.Fs

open RCore Mm

/-! ## Texts and their bytes -/

theorem stringBytes_append (a b : String) : stringBytes (a ++ b) = stringBytes a ++ stringBytes b := by
  rw [stringBytes, String.toByteArray_append, ByteArray.toList_data_append]
  rfl

theorem stringBytes_inj {a b : String} : stringBytes a = stringBytes b ↔ a = b := by
  refine ⟨fun h => ?_, congrArg stringBytes⟩
  rw [← String.toByteArray_inj]
  exact ByteArray.ext (Array.toList_inj.mp h)

theorem length_stringBytes (text : String) : (stringBytes text).length = text.utf8ByteSize := by
  rw [stringBytes, Array.length_toList]
  exact String.size_toByteArray

theorem fromUtf8_stringBytes (text : String) : fromUtf8 (stringBytes text) = some text := by
  have hbytes : (stringBytes text).toByteArray = text.toByteArray := by
    apply ByteArray.ext
    rw [← Array.toList_inj, List.toList_data_toByteArray]
    rfl
  rw [fromUtf8, hbytes, String.fromUTF8?, dif_pos text.isValidUTF8]
  rfl

theorem fromUtf8_eq_some {bytes : List UInt8} {text : String} (h : fromUtf8 bytes = some text) : bytes = stringBytes text := by
  rw [fromUtf8, String.fromUTF8?] at h
  split at h
  · obtain rfl := Option.some.inj h
    rw [stringBytes, String.fromUTF8, List.toList_data_toByteArray]
  · cases h

theorem stringBytes_join (texts : List String) : stringBytes (String.join texts) = texts.flatMap stringBytes := by
  induction texts with
  | nil => rfl
  | cons text texts ih => rw [String.join_cons, stringBytes_append, ih, List.flatMap_cons]

/-! ## Characters and bytes -/

theorem stringBytes_eq (text : String) : stringBytes text = text.toList.flatMap String.utf8EncodeChar := by
  rw [stringBytes, ← String.utf8Encode_toList, List.utf8Encode, List.toList_data_toByteArray]

/-- A character is one byte, or its first byte is not ASCII. -/
theorem utf8EncodeChar_cases (c : Char) : String.utf8EncodeChar c = [UInt8.ofNat c.toNat] ∧ c.toNat < 128 ∨
    2 ≤ (String.utf8EncodeChar c).length ∧ ∃ b ∈ String.utf8EncodeChar c, ¬b < 128 := by
  have hval : c.val.toNat = c.toNat := rfl
  unfold String.utf8EncodeChar
  simp only [hval]
  by_cases hascii : c.toNat ≤ 0x7f
  · rw [if_pos hascii]
    exact .inl ⟨rfl, Nat.lt_succ_of_le hascii⟩
  · rw [if_neg hascii]
    refine .inr ?_
    split
    · refine ⟨Nat.le_refl 2, _, List.mem_cons_self, ?_⟩
      rw [UInt8.lt_iff_toNat_lt, UInt8.toNat_ofNat']
      show ¬_ < 128
      omega
    · split
      · refine ⟨show 2 ≤ 3 by decide, _, List.mem_cons_self, ?_⟩
        rw [UInt8.lt_iff_toNat_lt, UInt8.toNat_ofNat']
        show ¬_ < 128
        omega
      · refine ⟨show 2 ≤ 4 by decide, _, List.mem_cons_self, ?_⟩
        rw [UInt8.lt_iff_toNat_lt, UInt8.toNat_ofNat']
        show ¬_ < 128
        omega

theorem length_le_encoded (chars : List Char) : chars.length ≤ (chars.flatMap String.utf8EncodeChar).length := by
  induction chars with
  | nil => exact Nat.le_refl _
  | cons c chars ih =>
    have hpos := Char.utf8Size_pos c
    rw [List.flatMap_cons, List.length_append, String.length_utf8EncodeChar, List.length_cons]
    omega

/-- The numbers of the characters are the bytes exactly if these are ASCII. -/
theorem toNat_eq_bytes_iff (text : String) :
    text.toList.map Char.toNat = (stringBytes text).map UInt8.toNat ↔ ∀ b ∈ stringBytes text, b < 128 := by
  rw [stringBytes_eq]
  generalize text.toList = chars
  induction chars with
  | nil => simp
  | cons c chars ih =>
    rw [List.flatMap_cons, List.map_append, List.map_cons]
    rcases utf8EncodeChar_cases c with ⟨henc, hascii⟩ | ⟨hlong, b, hb, hbig⟩
    · have hbyte : (UInt8.ofNat c.toNat).toNat = c.toNat := by
        rw [UInt8.toNat_ofNat']
        omega
      rw [henc, List.singleton_append, List.map_cons, List.map_nil, List.singleton_append, hbyte,
        List.forall_mem_cons, List.cons.injEq, ih, UInt8.lt_iff_toNat_lt, hbyte]
      exact and_congr_left fun _ => ⟨fun _ => hascii, fun _ => rfl⟩
    · refine ⟨fun hsame => ?_, fun hall => absurd (hall b (List.mem_append_left _ hb)) hbig⟩
      -- there are more bytes than characters
      have hlen := congrArg List.length hsame
      have hle := length_le_encoded chars
      rw [List.length_cons, List.length_map, List.length_append, List.length_map, List.length_map] at hlen
      omega

/-! ## Page edges -/

/-- No page edge between `start` and `stop` is within a character of the text at `start`. -/
def Unbroken (start stop : Nat) (text : String) : Prop :=
  ∀ edge, start < edge → edge < stop → edge % 4096 = 0 → String.Pos.Raw.IsValid text ⟨edge - start⟩

variable {s : Console} {start stop : Nat} {bs : List Slice} {text : String}

theorem Console.length_bytes (s : Console) (b : Slice) : (s.bytes b).length = b.len := Mem.bytes_length _ _ _

/-- Up to the first cut there is no edge, and behind it the rest of the text is to look at. -/
theorem unbroken_append {t u : String} {next : Nat} (hnext : next = min ((start / 4096 + 1) * 4096) stop)
    (ht : t.utf8ByteSize = next - start) (hlt : start < next) :
    Unbroken start stop (t ++ u) ↔ Unbroken next stop u := by
  have hsub : ∀ edge, (⟨edge - start⟩ : String.Pos.Raw) - t = ⟨edge - next⟩ := by
    intro edge
    apply String.Pos.Raw.ext
    rw [String.Pos.Raw.byteIdx_sub_string, ht]
    show edge - start - (next - start) = edge - next
    omega
  constructor
  · intro h edge hedge hstop hmod
    rcases String.Pos.Raw.isValid_append.mp (h edge (by omega) hstop hmod) with hvalid | ⟨-, hvalid⟩
    · have hle : edge - start ≤ t.utf8ByteSize := hvalid.le_utf8ByteSize
      omega
    · rwa [hsub] at hvalid
  · intro h edge hedge hstop hmod
    refine String.Pos.Raw.isValid_append.mpr ?_
    rcases Nat.lt_trichotomy edge next with hbefore | rfl | hafter
    · omega
    · refine .inl ?_
      rw [← ht]
      exact String.Pos.Raw.isValid_rawEndPos
    · refine .inr ⟨?_, ?_⟩
      · rw [String.Pos.Raw.le_iff, String.byteIdx_rawEndPos, ht]
        show next - start ≤ edge - start
        omega
      · rw [hsub]
        exact h edge hafter hstop hmod

/-- **The slices are texts exactly if no character is broken.** -/
theorem texts_iff (hcut : CutAtPages stop start bs) (hbytes : bs.flatMap s.bytes = stringBytes text) :
    (∃ texts : List String, bs.map s.bytes = texts.map stringBytes) ↔ Unbroken start stop text := by
  induction bs generalizing start text with
  | nil =>
    obtain rfl : start = stop := hcut
    refine ⟨fun _ edge hlt hle _ => by omega, fun _ => ⟨[], rfl⟩⟩
  | cons b bs ih =>
    obtain ⟨hlt, hnext, hcut⟩ := hcut
    rw [List.flatMap_cons] at hbytes
    have hlen := s.length_bytes b
    constructor
    · rintro ⟨texts, htexts⟩
      cases texts with
      | nil => cases htexts
      | cons t texts =>
        rw [List.map_cons, List.map_cons, List.cons.injEq] at htexts
        have hrest : bs.flatMap s.bytes = stringBytes (String.join texts) := by
          rw [stringBytes_join, List.flatMap_def, List.flatMap_def, htexts.2]
        obtain rfl : t ++ String.join texts = text := by
          rw [← stringBytes_inj, stringBytes_append, ← htexts.1, ← hrest, hbytes]
        have ht : t.utf8ByteSize = start + b.len - start := by
          rw [← length_stringBytes, ← htexts.1, hlen]
          omega
        exact (unbroken_append hnext ht (by omega)).mpr ((ih hcut hrest).mp ⟨texts, htexts.2⟩)
    · intro h
      rcases Nat.lt_or_eq_of_le (show start + b.len ≤ stop by omega) with hlt' | hend
      · have hvalid := h (start + b.len) (by omega) hlt' (by omega)
        obtain ⟨t, u, rfl, hpos⟩ := String.Pos.Raw.isValid_iff_exists_append.mp hvalid
        have ht : start + b.len - start = t.utf8ByteSize := congrArg String.Pos.Raw.byteIdx hpos
        rw [stringBytes_append] at hbytes
        obtain ⟨hb, hrest⟩ := List.append_inj hbytes (by rw [hlen, length_stringBytes]; omega)
        obtain ⟨texts, htexts⟩ := (ih hcut hrest).mpr ((unbroken_append hnext ht.symm (by omega)).mp h)
        exact ⟨t :: texts, by rw [List.map_cons, List.map_cons, hb, htexts]⟩
      · -- the last slice
        cases bs with
        | nil =>
          rw [List.flatMap_nil, List.append_nil] at hbytes
          exact ⟨[text], congrArg (· :: []) hbytes⟩
        | cons c bs =>
          have hmore := hcut.1
          omega

/-! ## Printing -/

theorem writeStr_run (chars : List Char) (s : Console) :
    (Console.writeStr chars).run s = some ((), { s with output := s.output ++ chars.map Char.toNat }) := by
  induction chars generalizing s with
  | nil => rw [Console.writeStr, Comp.run_pure, List.map_nil, List.append_nil]
  | cons c chars ih =>
    rw [Console.writeStr, Comp.run_bind, Console.consolePutchar, Comp.run_modify, Option.bind_some, ih, List.map_cons,
      List.append_assoc, List.singleton_append]

/-- The loop prints the texts of the slices. -/
theorem writeLoop_run (s : Console) {texts : List String} (h : bs.map s.bytes = texts.map stringBytes) :
    (Stdout.writeLoop bs).run s =
      some ((), { s with output := s.output ++ (texts.flatMap String.toList).map Char.toNat }) := by
  induction bs generalizing s texts with
  | nil =>
    cases texts with
    | nil => rw [Stdout.writeLoop, Comp.run_pure, List.flatMap_nil, List.map_nil, List.append_nil]
    | cons => cases h
  | cons b bs ih =>
    cases texts with
    | nil => cases h
    | cons t texts =>
      rw [List.map_cons, List.map_cons, List.cons.injEq] at h
      rw [Stdout.writeLoop, Comp.run_bind, Comp.run_get, Option.bind_some, h.1, fromUtf8_stringBytes, Comp.unwrap]
      simp only [Comp.run_bind, Comp.run_pure, Option.bind_some, writeStr_run]
      rw [ih { s with output := s.output ++ t.toList.map Char.toNat } h.2, List.flatMap_cons, List.map_append,
        List.append_assoc]

/-- If the loop does not panic, the slices are texts. -/
theorem writeLoop_texts {r : Unit × Console} (hrun : (Stdout.writeLoop bs).run s = some r) :
    ∃ texts : List String, bs.map s.bytes = texts.map stringBytes := by
  induction bs generalizing s with
  | nil => exact ⟨[], rfl⟩
  | cons b bs ih =>
    rw [Stdout.writeLoop, Comp.run_bind, Comp.run_get, Option.bind_some] at hrun
    cases htext : fromUtf8 (s.bytes b) with
    | none =>
      rw [htext] at hrun
      cases hrun
    | some t =>
      rw [htext, Comp.unwrap] at hrun
      simp only [Comp.run_bind, Comp.run_pure, Option.bind_some, writeStr_run] at hrun
      obtain ⟨texts, htexts⟩ := ih hrun
      exact ⟨t :: texts, by rw [List.map_cons, List.map_cons, ← fromUtf8_eq_some htext]; exact congrArg _ htexts⟩

/-! ## The system call -/

/-- The bytes at `ptr` of a process, on whatever pages. -/
def UserBytes (m : Mem) (pt : PageTable) (ptr : Nat) (bytes : List UInt8) : Prop :=
  ∀ i (h : i < bytes.length), userByte m pt (usizeAdd ptr i) = some bytes[i]

/-- `sys_write` of the text at `ptr` returns its length, with these arguments to `console_putchar`. -/
def Prints (fdTable : FdTable) (write : File → UserBuffer → Comp Console Nat) (token fd ptr : Nat) (text : String) (s : Console)
    (output : List Nat) : Prop :=
  ∃ rounds, ∀ fuel, rounds ≤ fuel → (sysWrite fdTable write fuel token fd ptr (stringBytes text).length).run s =
    some (some ((stringBytes text).length : Int), { s with output := s.output ++ output })

/-- The text is empty or ends below `2 ^ 39`, and no page edge is within a character. -/
structure Printable (ptr : Nat) (text : String) : Prop where
  inReach : text = "" ∨ ptr + (stringBytes text).length < 2 ^ 39
  unbroken : Unbroken ptr (ptr + (stringBytes text).length) text

section Calls

variable {fdTable : FdTable} {write : File → UserBuffer → Comp Console Nat} {fd token ptr fuel len : Nat}

/-- `sys_write` on `Stdout` after `translated_byte_buffers`. -/
theorem sysWrite_stdout (hfd : fdTable.file fd = some .stdout) : (sysWrite fdTable write fuel token fd ptr len).run s =
    ((translatedByteBuffers fuel token ptr len).run s.phys).bind fun r =>
      match r.1 with
      | none => some (none, { s with phys := r.2 })
      | some buffers => ((Stdout.write ⟨buffers⟩).run { s with phys := r.2 }).map fun q => (some (asIsize q.1), q.2) := by
  rw [sysWrite, hfd]
  simp only [File.writable, Bool.true_eq_false, if_false, Comp.run_bind, Comp.run_zoom]
  cases (translatedByteBuffers fuel token ptr len).run s.phys with
  | none => rfl
  | some r =>
    obtain ⟨_ | buffers, phys⟩ := r
    · rfl
    · simp only [Option.map_some, Option.bind_some]
      rw [Comp.run_bind]
      cases (Stdout.write ⟨buffers⟩).run { s with phys := phys } <;> rfl

/-- What the slices of a text hold. -/
theorem flatMap_bytes {bytes : List UInt8} {pt : PageTable} (hlt : ptr + bytes.length < 2 ^ 39)
    (hmem : UserBytes s.phys.mem pt ptr bytes) (haddr : (bs.flatMap Slice.addresses).map some =
      (List.range' ptr bytes.length).map fun a => pt.translateVa s.phys.mem (VirtAddr.ofUsize a)) :
    bs.flatMap s.bytes = bytes := by
  have hslice : ∀ b, s.bytes b = b.addresses.map s.phys.mem := by
    intro b
    rw [Console.bytes, Mem.bytes, Slice.addresses, List.range'_eq_map_range, List.map_map]
    rfl
  have hall : (bs.flatMap Slice.addresses).map (some ∘ s.phys.mem) = bytes.map some := by
    have hmap := congrArg (List.map (Option.map s.phys.mem)) haddr
    rw [List.map_map, List.map_map] at hmap
    refine hmap.trans ?_
    apply List.ext_getElem
    · rw [List.length_map, List.length_map, List.length_range']
    · intro i hi _
      rw [List.length_map, List.length_range'] at hi
      have hi' := hmem i hi
      rw [usizeAdd, Nat.mod_eq_of_lt (by omega)] at hi'
      rw [List.getElem_map, List.getElem_map, List.getElem_range', Nat.one_mul]
      exact hi'
  rw [← List.map_map] at hall
  rw [← List.map_injective_iff.mpr (Option.some_injective _) hall, List.map_flatMap]
  exact List.flatMap_congr fun b _ => hslice b

/-- Below `2 ^ 39` a text is printed if no character is broken, and otherwise the call does not return. -/
theorem sysWrite_below (hfd : fdTable.file fd = some .stdout) (hlt : ptr + (stringBytes text).length < 2 ^ 39)
    (hmem : UserBytes s.phys.mem (PageTable.fromToken token) ptr (stringBytes text))
    (hfuel : (stringBytes text).length / 4096 + 2 ≤ fuel) :
    (Unbroken ptr (ptr + (stringBytes text).length) text →
      (sysWrite fdTable write fuel token fd ptr (stringBytes text).length).run s = some (some ((stringBytes text).length : Int),
        { s with output := s.output ++ text.toList.map Char.toNat })) ∧
    (¬Unbroken ptr (ptr + (stringBytes text).length) text →
      (sysWrite fdTable write fuel token fd ptr (stringBytes text).length).run s = none) := by
  have hmapped : ∀ a, ptr ≤ a → a < ptr + (stringBytes text).length →
      (PageTable.fromToken token).translate s.phys.mem (pageOf a) ≠ none := by
    intro a hle ha hnone
    have hbyte := hmem (a - ptr) (by omega)
    rw [usizeAdd, Nat.add_sub_cancel' hle, Nat.mod_eq_of_lt (by omega), userByte, PageTable.translateVa_eq] at hbyte
    rw [show (VirtAddr.ofUsize a).floor = pageOf a from rfl, hnone] at hbyte
    cases hbyte
  obtain ⟨bs, hrun, haddr, -, hcut⟩ := translatedByteBuffers_cut hlt hmapped
  have hbytes := flatMap_bytes hlt hmem haddr
  have hlen : UserBuffer.len ⟨bs⟩ = (stringBytes text).length := by
    rw [← hbytes, UserBuffer.len, List.length_flatMap]
    exact congrArg List.sum (List.map_congr_left fun b _ => (s.length_bytes b).symm)
  rw [sysWrite_stdout hfd, hrun fuel hfuel, Option.bind_some]
  simp only [Stdout.write, Comp.run_bind]
  constructor
  · intro hwhole
    obtain ⟨texts, htexts⟩ := (texts_iff hcut hbytes).mpr hwhole
    have hjoin : String.join texts = text := by
      rw [← stringBytes_inj, stringBytes_join, ← hbytes, List.flatMap_def, List.flatMap_def, htexts]
    rw [writeLoop_run s htexts, Option.bind_some, ← String.toList_join, hjoin, Comp.run_pure, Option.map_some,
      hlen, asIsize, if_pos (by omega)]
  · intro hbroken
    cases hloop : (Stdout.writeLoop bs).run s with
    | none => rfl
    | some r => exact absurd ((texts_iff hcut hbytes).mp (writeLoop_texts hloop)) hbroken

/-- A text that is not empty and does not end below `2 ^ 39` is not printed. -/
theorem not_prints_above (hfd : fdTable.file fd = some .stdout) (hptr : ptr < 2 ^ 64)
    (hlen : (stringBytes text).length < 2 ^ 64) (hout : ¬(text = "" ∨ ptr + (stringBytes text).length < 2 ^ 39))
    (output : List Nat) : ¬Prints fdTable write token fd ptr text s output := by
  rintro ⟨rounds, hprints⟩
  have hrun := hprints rounds (Nat.le_refl _)
  rw [sysWrite_stdout hfd, translatedByteBuffers] at hrun
  by_cases hlt : ptr < usizeAdd ptr (stringBytes text).length
  · have hstop : 2 ^ 39 ≤ usizeAdd ptr (stringBytes text).length := by
      unfold usizeAdd at hlt ⊢
      omega
    cases hloop : (translatedLoop (PageTable.fromToken token) (usizeAdd ptr (stringBytes text).length) rounds ptr []).run
      s.phys with
    | none =>
      rw [hloop] at hrun
      cases hrun
    | some r =>
      obtain ⟨_ | buffers, phys⟩ := r
      · rw [hloop] at hrun
        cases hrun
      · exact translatedLoop_never hstop hlt [] buffers phys hloop
  · -- the end has wrapped around, so there is no slice
    rw [translatedLoop_over hlt] at hrun
    have hzero : (0 : Int) = ((stringBytes text).length : Int) := by
      have h := congrArg (Option.map Prod.fst) hrun
      exact Option.some.inj (Option.some.inj h)
    have hempty : text = "" := by
      apply stringBytes_inj.mp
      exact List.eq_nil_of_length_eq_zero (by omega)
    exact hout (.inl hempty)

/-- **What is printed are the characters**, if the text can be printed at all. -/
theorem prints_iff (hfd : fdTable.file fd = some .stdout) (hptr : ptr < 2 ^ 64) (hlen : (stringBytes text).length < 2 ^ 64)
    (hmem : UserBytes s.phys.mem (PageTable.fromToken token) ptr (stringBytes text)) {output : List Nat} :
    Prints fdTable write token fd ptr text s output ↔ Printable ptr text ∧ output = text.toList.map Char.toNat := by
  by_cases hlt : ptr + (stringBytes text).length < 2 ^ 39
  · have hrun := fun fuel hfuel => @sysWrite_below s text fdTable write fd token ptr fuel hfd hlt hmem hfuel
    constructor
    · rintro ⟨rounds, hprints⟩
      have hboth := hprints (rounds + ((stringBytes text).length / 4096 + 2)) (Nat.le_add_right _ _)
      obtain ⟨hwhole, hbroken⟩ := hrun (rounds + ((stringBytes text).length / 4096 + 2)) (Nat.le_add_left _ _)
      have hunbroken : Unbroken ptr (ptr + (stringBytes text).length) text := by
        by_contra hno
        rw [hbroken hno] at hboth
        cases hboth
      rw [hwhole hunbroken] at hboth
      have houtput := congrArg (Option.map fun r => r.2.output) hboth
      exact ⟨⟨.inr hlt, hunbroken⟩, (List.append_cancel_left (Option.some.inj houtput)).symm⟩
    · rintro ⟨hp, rfl⟩
      exact ⟨_, fun fuel hfuel => (hrun fuel hfuel).1 hp.unbroken⟩
  · by_cases hempty : text = ""
    · subst hempty
      have hdone : ∀ fuel, (sysWrite fdTable write fuel token fd ptr (stringBytes "").length).run s =
          some (some ((stringBytes "").length : Int), { s with output := s.output ++ [] }) := by
        intro fuel
        rw [sysWrite_stdout hfd, translatedByteBuffers, show (stringBytes "").length = 0 from rfl, usizeAdd, Nat.add_zero,
          Nat.mod_eq_of_lt hptr, translatedLoop_over (Nat.lt_irrefl ptr), Option.bind_some, List.append_nil]
        rfl
      constructor
      · rintro ⟨rounds, hprints⟩
        have houtput := congrArg (Option.map fun r => r.2.output) ((hprints rounds (Nat.le_refl _)).symm.trans (hdone rounds))
        refine ⟨⟨.inl rfl, fun edge hedge hstop _ => ?_⟩, List.append_cancel_left (Option.some.inj houtput)⟩
        exact absurd hstop (Nat.not_lt_of_lt hedge)
      · rintro ⟨-, rfl⟩
        exact ⟨0, fun fuel _ => hdone fuel⟩
    · have hout : ¬(text = "" ∨ ptr + (stringBytes text).length < 2 ^ 39) := fun h => h.elim hempty hlt
      exact ⟨fun h => absurd h (not_prints_above hfd hptr hlen hout output), fun h => absurd h.1.inReach hout⟩

end Calls

/-- **When text gets to the console.** `Stdout` prints a text of the user, from whatever address, exactly if it ends within reach
of `translated_byte_buffers` and no page edge is within a character; and the console gets the bytes themselves exactly if these
are ASCII besides. -/
theorem sysWrite_prints_iff {fdTable : FdTable} (write : File → UserBuffer → Comp Console Nat) {fd : Nat}
    (hfd : fdTable.file fd = some .stdout) {s : Console} {token ptr : Nat} {text : String} (hptr : ptr < 2 ^ 64)
    (hlen : (stringBytes text).length < 2 ^ 64)
    (hmem : UserBytes s.phys.mem (PageTable.fromToken token) ptr (stringBytes text)) :
    (Prints fdTable write token fd ptr text s (text.toList.map Char.toNat) ↔ Printable ptr text) ∧
      (Prints fdTable write token fd ptr text s ((stringBytes text).map UInt8.toNat) ↔
        Printable ptr text ∧ ∀ b ∈ stringBytes text, b < 128) := by
  constructor
  · rw [prints_iff hfd hptr hlen hmem]
    exact and_iff_left rfl
  · rw [prints_iff hfd hptr hlen hmem, ← toNat_eq_bytes_iff]
    exact and_congr_right fun _ => eq_comm

theorem stored_byte (s : Phys) (p : Nat) (b : UInt8) : ({ s with mem := s.mem.write p [b] } : Phys).mem p = b :=
  Mem.write_of_mem (a := p) (k := 0) Nat.zero_lt_one

theorem stored_other (s : Phys) {p q : Nat} (b : UInt8) (h : q ≠ p) :
    ({ s with mem := s.mem.write p [b] } : Phys).mem q = s.mem q := by
  refine Mem.write_of_not_mem ?_
  rw [List.length_singleton]
  omega

/-- A program that has two bytes on its stack, on either side of a page edge. -/
theorem exists_acrossEdge (a b : UInt8) : ∃ s ms, UserSpace smallKernel [] s ms ∧
    UserBytes s.mem (PageTable.fromToken ms.token) 0x12fff [a, b] := by
  obtain ⟨s, ms, hu, h⟩ := exists_loaded
  have hgood := hu.good
  obtain ⟨e, he⟩ := Option.ne_none_iff_exists'.mp
    (h.mapped hgood.2 (p := (0x12, 0x14)) (v := 0x12) (by decide) (by decide))
  obtain ⟨e', he'⟩ := Option.ne_none_iff_exists'.mp
    (h.mapped hgood.2 (p := (0x12, 0x14)) (v := 0x13) (by decide) (by decide))
  rw [hgood.1.translate_token] at he he'
  generalize hs₁ : ({ s with mem := s.mem.write (e.ppn * 4096 + 4095) [a] } : Phys) = s₁
  obtain ⟨hu₁, hkeeps₁⟩ := hu.store he (by omega) (by rw [List.length_singleton]; omega) hs₁.symm
  generalize hs₂ : ({ s₁ with mem := s₁.mem.write (e'.ppn * 4096) [b] } : Phys) = s₂
  obtain ⟨hu₂, hkeeps₂⟩ := hu₁.store (by rw [hkeeps₁]; exact he') (Nat.mul_div_cancel _ (by decide))
    (by rw [List.length_singleton]; omega) hs₂.symm
  have ha : s₂.mem (e.ppn * 4096 + 4095) = a := by
    have hne : e.ppn * 4096 + 4095 ≠ e'.ppn * 4096 := by omega
    rw [← hs₂, stored_other s₁ b hne, ← hs₁, stored_byte]
  have hb : s₂.mem (e'.ppn * 4096) = b := by rw [← hs₂, stored_byte]
  have hpage : (PageTable.fromToken ms.token).translate s₂.mem (0x12fff / 4096) = some e := by
    rw [hu₂.good.1.translate_token, hkeeps₂, hkeeps₁]
    exact he
  have hpage' : (PageTable.fromToken ms.token).translate s₂.mem (0x13000 / 4096) = some e' := by
    rw [hu₂.good.1.translate_token, hkeeps₂, hkeeps₁]
    exact he'
  have hbyte := userByte_of_translate hpage (by decide)
  have hbyte' := userByte_of_translate hpage' (by decide)
  rw [show 0x12fff % 4096 = 4095 from rfl, ha] at hbyte
  rw [show 0x13000 % 4096 = 0 from rfl, Nat.add_zero, hb] at hbyte'
  refine ⟨s₂, ms, hu₂, fun i hi => ?_⟩
  match i, hi with
  | 0, _ => exact hbyte
  | 1, _ => exact hbyte'

/-- Two characters across a page edge. -/
theorem sysWrite_prints_ok : ∃ s ms, UserSpace smallKernel [] s.phys ms ∧
    Prints FdTable.new (fun _ _ => Comp.panic) ms.token 1 0x12fff "ok" s [0x6f, 0x6b] := by
  obtain ⟨s, ms, hu, hmem⟩ := exists_acrossEdge 0x6f 0x6b
  have hbytes : stringBytes "ok" = [0x6f, 0x6b] := by decide
  have hvalid : String.Pos.Raw.IsValid "ok" ⟨1⟩ := by decide
  have hp : Printable 0x12fff "ok" := by
    refine ⟨.inr (by rw [hbytes]; decide), fun edge hlt hle _ => ?_⟩
    rw [hbytes] at hle
    obtain rfl : edge = 0x13000 := by
      rw [List.length_cons, List.length_singleton] at hle
      omega
    exact hvalid
  rw [← hbytes] at hmem
  have hchars : "ok".toList.map Char.toNat = [0x6f, 0x6b] := by decide
  have hprints := @sysWrite_prints_iff FdTable.new (fun _ _ => Comp.panic) 1 rfl ⟨s, []⟩ ms.token 0x12fff "ok" (by decide)
    (by rw [hbytes]; decide) hmem
  rw [hchars] at hprints
  exact ⟨⟨s, []⟩, ms, hu, hprints.1.mpr hp⟩

/-- One character across a page edge: the kernel panics. -/
theorem sysWrite_broken_character : ∃ s ms, UserSpace smallKernel [] s.phys ms ∧
    UserBytes s.phys.mem (PageTable.fromToken ms.token) 0x12fff (stringBytes "é") ∧
    ∀ fuel, 2 ≤ fuel → (sysWrite FdTable.new (fun _ _ => Comp.panic) fuel ms.token 1 0x12fff 2).run s = none := by
  obtain ⟨s, ms, hu, hmem⟩ := exists_acrossEdge 0xc3 0xa9
  have hbytes : stringBytes "é" = [0xc3, 0xa9] := by decide
  have hlen : (stringBytes "é").length = 2 := by rw [hbytes]; rfl
  have hbroken : ¬Unbroken 0x12fff (0x12fff + 2) "é" := by
    intro h
    have hvalid := h 0x13000 (by decide) (by decide) (by decide)
    revert hvalid
    decide
  rw [← hbytes] at hmem
  refine ⟨⟨s, []⟩, ms, hu, hmem, fun fuel hfuel => ?_⟩
  have hrun := (@sysWrite_below ⟨s, []⟩ "é" FdTable.new (fun _ _ => Comp.panic) 1 ms.token 0x12fff fuel rfl
    (by rw [hlen]; decide) hmem (by rw [hlen]; exact hfuel)).2
  rw [hlen] at hrun
  exact hrun hbroken

end RCore.Fs
