import RCore.Mm.Verify.UserMemory

/-!
# The strings of `translated_str`

Every byte of the user becomes the character with its number, and that is encoded again. A byte below 128
is its own encoding, but every other byte becomes two: a string comes out as it went in exactly if it is
ASCII.
-/

namespace RCore.Mm

variable {s : Phys} {m : Mem} {pt : PageTable} {va token ptr fuel : Nat} {bs : List UInt8}

/-! ## Bytes of the user -/

/-- The byte at a virtual address. -/
def userByte (m : Mem) (pt : PageTable) (va : Nat) : Option UInt8 :=
  (pt.translateVa m (VirtAddr.ofUsize va)).map m

/-- The bytes from `va` on are `bs`, none of them NUL, and a NUL, on whatever pages. -/
def UserString (m : Mem) (pt : PageTable) : Nat → List UInt8 → Prop
  | va, [] => userByte m pt va = some 0
  | va, b :: bs => b ≠ 0 ∧ userByte m pt va = some b ∧ UserString m pt (usizeAdd va 1) bs

/-! ## The encoding of a byte -/

/-- The bytes that a byte becomes. -/
def reencode (b : UInt8) : List UInt8 := String.utf8EncodeChar (Char.ofUInt8 b)

theorem stringBytes_push (string : String) (b : UInt8) :
    stringBytes (string.push (Char.ofUInt8 b)) = stringBytes string ++ reencode b := by
  rw [stringBytes, String.toByteArray_push, List.utf8Encode_singleton, ByteArray.toList_data_append,
    List.toList_data_toByteArray]
  rfl

theorem length_reencode (b : UInt8) : (reencode b).length = (Char.ofUInt8 b).utf8Size :=
  String.length_utf8EncodeChar _

theorem utf8Size_ofUInt8 (b : UInt8) : (Char.ofUInt8 b).utf8Size = 1 ↔ b < 128 := by
  have hval : (Char.ofUInt8 b).val.toNat = b.toNat := by
    show b.toUInt32.toNat = b.toNat
    exact UInt8.toNat_toUInt32 b
  rw [Char.utf8Size_eq_one_iff, UInt32.le_iff_toNat_le, hval, UInt8.lt_iff_toNat_lt]
  show b.toNat ≤ 127 ↔ b.toNat < 128
  omega

theorem reencode_ascii {b : UInt8} (hb : b < 128) : reencode b = [b] := by
  rw [reencode, String.utf8EncodeChar_eq_singleton ((utf8Size_ofUInt8 b).mpr hb)]
  show [b.toUInt32.toUInt8] = [b]
  rw [UInt8.toUInt8_toUInt32]

/-- The bytes come out as they are exactly if they are ASCII. -/
theorem flatMap_reencode_iff (bs : List UInt8) : bs.flatMap reencode = bs ↔ ∀ b ∈ bs, b < 128 := by
  have hlong : ∀ l : List UInt8, l.length ≤ (l.flatMap reencode).length := by
    intro l
    induction l with
    | nil => exact Nat.le_refl _
    | cons b l ih =>
      have hpos := Char.utf8Size_pos (Char.ofUInt8 b)
      rw [List.flatMap_cons, List.length_append, length_reencode, List.length_cons]
      omega
  constructor
  · intro h
    induction bs with
    | nil => exact fun b hb => absurd hb List.not_mem_nil
    | cons b bs ih =>
      rw [List.flatMap_cons] at h
      have hsize : (Char.ofUInt8 b).utf8Size = 1 := by
        have hlen := congrArg List.length h
        rw [List.length_append, length_reencode, List.length_cons] at hlen
        have hpos := Char.utf8Size_pos (Char.ofUInt8 b)
        have hrest := hlong bs
        omega
      have hascii := (utf8Size_ofUInt8 b).mp hsize
      rw [reencode_ascii hascii, List.singleton_append, List.cons.injEq] at h
      intro c hc
      rcases List.mem_cons.mp hc with rfl | hc
      · exact hascii
      · exact ih h.2 c hc
  · intro h
    induction bs with
    | nil => rfl
    | cons b bs ih =>
      rw [List.flatMap_cons, reencode_ascii (h b List.mem_cons_self),
        ih fun c hc => h c (List.mem_cons_of_mem b hc)]
      rfl

/-! ## The loop -/

/-- The loop pushes the string's bytes, one character each. -/
theorem translatedStrLoop_run (h : UserString s.mem pt va bs) (hfuel : bs.length < fuel) (string : String) :
    ∃ result, (translatedStrLoop pt fuel va string).run s = some (some result, s) ∧
      stringBytes result = stringBytes string ++ bs.flatMap reencode := by
  induction bs generalizing fuel va string with
  | nil =>
    cases fuel with
    | zero => exact absurd hfuel (Nat.not_lt_zero _)
    | succ fuel =>
      obtain ⟨pa, hpa, hbyte⟩ := Option.map_eq_some_iff.mp h
      refine ⟨string, ?_, by rw [List.flatMap_nil, List.append_nil]⟩
      rw [translatedStrLoop, Comp.run_bind, Comp.run_get, Option.bind_some, hpa]
      simp only [Comp.unwrap, Comp.run_bind, Comp.run_pure, Option.bind_some]
      rw [if_pos hbyte]
      rfl
  | cons b bs ih =>
    cases fuel with
    | zero => exact absurd hfuel (Nat.not_lt_zero _)
    | succ fuel =>
      obtain ⟨hne, hb, hrest⟩ := h
      obtain ⟨pa, hpa, hbyte⟩ := Option.map_eq_some_iff.mp hb
      obtain ⟨result, hrun, hbytes⟩ := ih hrest (Nat.lt_of_succ_lt_succ hfuel) (string.push (Char.ofUInt8 b))
      refine ⟨result, ?_, ?_⟩
      · rw [translatedStrLoop, Comp.run_bind, Comp.run_get, Option.bind_some, hpa]
        simp only [Comp.unwrap, Comp.run_bind, Comp.run_pure, Option.bind_some]
        rw [hbyte, if_neg hne, hrun]
      · rw [hbytes, stringBytes_push, List.flatMap_cons, List.append_assoc]

/-- `translated_str` returns, and its result does not depend on the number of rounds. -/
theorem translatedStr_run (h : UserString s.mem (PageTable.fromToken token) ptr bs) :
    ∃ result, (∀ fuel, bs.length < fuel → (translatedStr fuel token ptr).run s = some (some result, s)) ∧
      stringBytes result = bs.flatMap reencode := by
  obtain ⟨result, _, hbytes⟩ := translatedStrLoop_run h (Nat.lt_succ_self _) ""
  refine ⟨result, fun fuel hfuel => ?_, hbytes⟩
  obtain ⟨result', hrun, hbytes'⟩ := translatedStrLoop_run h hfuel ""
  have heq : result' = result := by
    rw [← String.toByteArray_inj]
    apply ByteArray.ext
    exact Array.toList_inj.mp (hbytes'.trans hbytes.symm)
  rw [translatedStr, hrun, heq]

/-- **When `translated_str` returns the user's string**: its bytes are those before the NUL exactly if
these are ASCII. -/
theorem translatedStr_faithful_iff (h : UserString s.mem (PageTable.fromToken token) ptr bs) :
    (∃ string, (∀ fuel, bs.length < fuel → (translatedStr fuel token ptr).run s = some (some string, s)) ∧
      stringBytes string = bs) ↔ ∀ b ∈ bs, b < 128 := by
  obtain ⟨result, hrun, hbytes⟩ := translatedStr_run h
  rw [← flatMap_reencode_iff]
  constructor
  · rintro ⟨string, hrun', hstring⟩
    have heq : string = result := by
      have hr := hrun' _ (Nat.lt_succ_self _)
      rw [hrun _ (Nat.lt_succ_self _)] at hr
      cases hr
      rfl
    rw [← hbytes, ← heq, hstring]
  · intro hsame
    exact ⟨result, hrun, hbytes.trans hsame⟩

/-! ## Strings on the stack of a program -/

theorem userByte_of_translate {e : PageTableEntry} (he : pt.translate m (va / 4096) = some e) (hlt : va < 2 ^ 39) :
    userByte m pt va = some (m (e.ppn * 4096 + va % 4096)) := by
  have hmask : va % 2 ^ 39 = va := Nat.mod_eq_of_lt hlt
  have hfloor : (VirtAddr.ofUsize va).floor = va / 4096 := by
    show va % 2 ^ 39 / 4096 = va / 4096
    rw [hmask]
  rw [userByte, PageTable.translateVa_eq, hfloor, he, Option.map_some, Option.map_some, VirtAddr.pageOffset_ofUsize]

/-- A string from its bytes. -/
theorem userString_of_bytes (hbytes : ∀ k (hk : k < bs.length), bs[k] ≠ 0 ∧ userByte m pt (va + k) = some bs[k])
    (hzero : userByte m pt (va + bs.length) = some 0) (hlt : va + bs.length < 2 ^ 64) : UserString m pt va bs := by
  induction bs generalizing va with
  | nil => exact hzero
  | cons b bs ih =>
    rw [List.length_cons] at hzero hlt
    have hnext : usizeAdd va 1 = va + 1 := Nat.mod_eq_of_lt (by omega)
    have hb := hbytes 0 (Nat.succ_pos _)
    refine ⟨hb.1, hb.2, ?_⟩
    rw [hnext]
    refine ih (fun k hk => ?_) ?_ (by omega)
    · have hk' := hbytes (k + 1) (Nat.succ_lt_succ hk)
      rw [Nat.add_assoc, Nat.add_comm 1 k]
      exact hk'
    · rw [Nat.add_assoc, Nat.add_comm 1 bs.length]
      exact hzero

/-- A program that has a string on its stack. -/
theorem exists_userString (hne : ∀ b ∈ bs, b ≠ 0) (hlen : bs.length < 4096) : ∃ s ms, UserSpace smallKernel [] s ms ∧
    UserString s.mem (PageTable.fromToken ms.token) 0x12000 bs := by
  obtain ⟨s, ms, hu, h⟩ := exists_loaded
  have hgood := hu.good
  obtain ⟨e, he⟩ := Option.ne_none_iff_exists'.mp
    (h.mapped hgood.2 (p := (0x12, 0x14)) (v := 0x12) (by decide) (by decide))
  rw [hgood.1.translate_token] at he
  have hpage : e.ppn * 4096 / 4096 = e.ppn := Nat.mul_div_cancel _ (by decide)
  have hfits : e.ppn * 4096 % 4096 + (bs ++ [0]).length ≤ 4096 := by
    rw [Nat.mul_mod_left, List.length_append, List.length_singleton]
    omega
  generalize hs' : ({ s with mem := s.mem.write (e.ppn * 4096) (bs ++ [0]) } : Phys) = s'
  obtain ⟨hu', hkeeps⟩ := hu.store he hpage hfits hs'.symm
  have he' : (PageTable.fromToken ms.token).translate s'.mem 0x12 = some e := by
    rw [hu'.good.1.translate_token, hkeeps]
    exact he
  have hbyte : ∀ k, k ≤ bs.length →
      userByte s'.mem (PageTable.fromToken ms.token) (0x12000 + k) = some ((bs ++ [0]).getD k 0) := by
    intro k hk
    have hdiv : (0x12000 + k) / 4096 = 0x12 := by omega
    have hmod : (0x12000 + k) % 4096 = k := by omega
    have hin : k < (bs ++ [0]).length := by
      rw [List.length_append, List.length_singleton]
      omega
    rw [userByte_of_translate (by rw [hdiv]; exact he') (by omega), hmod, ← hs']
    exact congrArg some (Mem.write_of_mem hin)
  refine ⟨s', ms, hu', userString_of_bytes (fun k hk => ?_) ?_ (by omega)⟩
  · refine ⟨hne _ (List.getElem_mem hk), ?_⟩
    rw [hbyte k (Nat.le_of_lt hk), List.getD_eq_getElem?_getD, List.getElem?_append_left hk,
      List.getElem?_eq_getElem hk, Option.getD_some]
  · rw [hbyte _ (Nat.le_refl _), List.getD_eq_getElem?_getD, List.getElem?_append_right (Nat.le_refl _),
      Nat.sub_self]
    rfl

/-- `ls`, as a program passes it. -/
theorem translatedStr_faithful_ls : ∃ s ms string, UserSpace smallKernel [] s ms ∧
    (translatedStr 3 ms.token 0x12000).run s = some (some string, s) ∧ stringBytes string = [0x6c, 0x73] := by
  obtain ⟨s, ms, hu, h⟩ := @exists_userString [0x6c, 0x73] (by simp) (by decide)
  obtain ⟨string, hrun, hbytes⟩ := (translatedStr_faithful_iff h).mpr (by simp)
  exact ⟨s, ms, string, hu, hrun 3 (by decide), hbytes⟩

/-- A name with one character that is not ASCII: the kernel sees another one, of four bytes. -/
theorem translatedStr_not_faithful : ∃ s ms, UserSpace smallKernel [] s ms ∧
    UserString s.mem (PageTable.fromToken ms.token) 0x12000 (stringBytes "é") ∧
    (¬∃ string, (∀ fuel, (stringBytes "é").length < fuel →
      (translatedStr fuel ms.token 0x12000).run s = some (some string, s)) ∧ stringBytes string = stringBytes "é") ∧
    ∃ string, (∀ fuel, 2 < fuel → (translatedStr fuel ms.token 0x12000).run s = some (some string, s)) ∧
      stringBytes string = [0xc3, 0x83, 0xc2, 0xa9] := by
  have hbs : stringBytes "é" = [0xc3, 0xa9] := by decide
  rw [hbs]
  obtain ⟨s, ms, hu, h⟩ := @exists_userString [0xc3, 0xa9] (by simp) (by decide)
  obtain ⟨result, hrun, hbytes⟩ := translatedStr_run h
  refine ⟨s, ms, hu, h, ?_, result, hrun, hbytes⟩
  rintro ⟨string, hrun', hstring⟩
  have hr := hrun' 3 (by decide)
  rw [hrun 3 (by decide), Option.some.injEq, Prod.mk.injEq, Option.some.injEq] at hr
  rw [← hr.1, hbytes] at hstring
  exact absurd hstring (by decide)

end RCore.Mm
