import RCore.Mm.Verify.UserString

/-!
# The stack of a new program

`from_elf` maps two pages behind the last segment as the stack, whatever the program is: if their
addresses did not fit it would not return. What the kernel stores there, through one translation for each
piece, is a store at the virtual addresses.
-/

namespace RCore.Mm

variable {L : Layout} {rest : List Nat} {s s' : Phys} {ms : MemorySet} {m m₀ : Mem} {top a : Nat} {e : PageTableEntry}

/-! ## The pages -/

/-- The flags of a page of the stack. -/
def stackFlags : PTEFlags := PTEFlags.R ||| PTEFlags.W ||| PTEFlags.U ||| PTEFlags.V

/-- The 8192 bytes below `top` are a stack: their addresses are masked alike, and their pages are mapped for
the user. -/
structure UserStack (m : Mem) (ms : MemorySet) (top : Nat) : Prop where
  aligned : top % 4096 = 0
  room : 8192 ≤ top
  lt : top < 2 ^ 40
  masked : (top - 8192) % 2 ^ 39 + 8192 < 2 ^ 39
  mapped : ∀ v, (top - 8192) % 2 ^ 39 / 4096 ≤ v → v < (top - 8192) % 2 ^ 39 / 4096 + 2 →
    ∃ e, ms.translate m v = some e ∧ e.flags = stackFlags

theorem mapSegments_maxEndVpn (elf : ElfFile) (phs : List ProgramHeader) (ms : MemorySet) {maxEndVpn : Nat}
    (hmax : maxEndVpn ≤ 2 ^ 27) (s : Phys) :
    (MemorySet.mapSegments elf ms maxEndVpn phs).wlp (fun r _ => r.2 ≤ 2 ^ 27) s := by
  induction phs generalizing ms maxEndVpn s with
  | nil =>
    rw [MemorySet.mapSegments, Comp.wlp_pure]
    exact hmax
  | cons ph phs ih =>
    rw [MemorySet.mapSegments]
    split
    · simp only [MapArea.new, Comp.wlp_bind, VPNRange.wlp_new, Comp.wlp_pure, Comp.wlp_assert]
      intro _ _ r s₁ _ _ s₂ _
      exact ih _ (VirtAddr.ceil_le _) s₂
    · exact ih _ hmax s

/-- A pushed range of pages is mapped with its permissions. -/
theorem Pushed.mapped {ms' : MemorySet} {area : MapArea} (h : Pushed L rest s ms area s' ms') (hfr : ms'.Framed)
    (htype : area.mapType = .framed) {v : Nat} (hv : v ∈ area.vpnRange.toList) :
    ∃ e, ms'.translate s'.mem v = some e ∧ e.flags = area.mapPerm ||| PTEFlags.V := by
  obtain ⟨es, hes, hareas⟩ := h.areas
  rw [← hes] at hv
  obtain ⟨⟨w, f⟩, hf, rfl⟩ := List.mem_map.mp hv
  have hmem : area.extend es ∈ ms'.areas := by
    rw [hareas]
    exact List.mem_append_right _ List.mem_cons_self
  have hdata : (w, f) ∈ (area.extend es).dataFrames := by
    rw [MapArea.extend, htype]
    exact List.mem_append_right _ hf
  obtain ⟨e, he, -, hflags⟩ := h.good.translate_area hfr hmem hdata
  rw [MapArea.extend_mapPerm] at hflags
  exact ⟨e, he, hflags⟩

/-- **The stack of every program that is loaded.** -/
theorem fromElf_stack (hh : Held L.firstFrame s.frames rest) (elf : ElfFile) :
    (MemorySet.fromElf L elf).wlp (fun r s' => UserStack s'.mem r.1 r.2.1) s := by
  rw [MemorySet.fromElf]
  simp only [Comp.wlp_bind]
  refine newUser_wlp hh fun ms₀ s₀ hareas hg hk => ?_
  have h₀ : Whole L rest s s₀ ms₀ := ⟨hg, MemorySet.full_of_nil hareas, hk⟩
  have hfr₀ : ms₀.Framed := MemorySet.framed_of_nil hareas
  intro r s₁ hrun₁
  obtain ⟨h₁, hfr₁⟩ := mapSegments_wlp elf _ 0 h₀ hfr₀ _ _ hrun₁
  have hmax := mapSegments_maxEndVpn elf _ ms₀ (Nat.zero_le _) s₀ _ _ hrun₁
  obtain ⟨ms₁, maxEndVpn⟩ := r
  simp only at h₁ hfr₁ hmax ⊢
  obtain ⟨bottom, hbottom, haligned, hlt⟩ : ∃ bottom, usizeAdd (usizeMul maxEndVpn 4096) 4096 = bottom ∧
      bottom % 4096 = 0 ∧ bottom < 2 ^ 39 + 8192 := by
    refine ⟨_, rfl, ?_, ?_⟩
    · unfold usizeAdd usizeMul
      omega
    · unfold usizeAdd usizeMul
      omega
  have htop : usizeAdd bottom 8192 = bottom + 8192 := by
    unfold usizeAdd
    omega
  rw [hbottom, htop]
  refine (Mm.pushNew_wlp h₁.good (fun hc => absurd rfl hc)).mono ?_
  rintro ms₂ s₂ ⟨hle₂, hp₂⟩
  have h₂ := h₁.push hp₂ (fresh_new hle₂ .framed)
  have hfr₂ := hp₂.framed hfr₁ rfl
  refine (Mm.pushNew_wlp h₂.good (fun hc => absurd rfl hc)).mono ?_
  rintro ms₃ s₃ ⟨hle₃, hp₃⟩
  rw [Comp.wlp_pure]
  simp only
  have hfloor : (VirtAddr.ofUsize bottom).floor = bottom % 2 ^ 39 / 4096 := rfl
  have hceil : (VirtAddr.ofUsize (bottom + 8192)).ceil = ((bottom + 8192) % 2 ^ 39 + 4095) / 4096 :=
    VirtAddr.ceil_eq _
  -- a range whose end is masked to something below its start is refused
  have hmasked : bottom % 2 ^ 39 + 8192 < 2 ^ 39 := by
    rw [hfloor, hceil] at hle₂
    omega
  refine ⟨by omega, by omega, by omega, ?_, ?_⟩
  · rw [Nat.add_sub_cancel]
    exact hmasked
  · intro v hv hvlt
    rw [Nat.add_sub_cancel] at hv hvlt
    have hrange : v ∈ (newArea bottom (bottom + 8192) hle₂ .framed
        (PTEFlags.R ||| PTEFlags.W ||| PTEFlags.U)).vpnRange.toList := by
      rw [VPNRange.mem_toList]
      refine ⟨hv, ?_⟩
      show v < (VirtAddr.ofUsize (bottom + 8192)).ceil
      rw [hceil]
      omega
    obtain ⟨e, he, hflags⟩ := hp₂.mapped hfr₂ rfl hrange
    exact ⟨e, hp₃.translate h₂.good (by omega) he, hflags⟩

namespace UserStack

/-- Every address of the stack is on a page. -/
theorem page (h : UserStack m ms top) (hle : top - 8192 ≤ a) (hlt : a < top) :
    ∃ e, ms.translate m (VirtAddr.ofUsize a).floor = some e ∧ e.flags = stackFlags := by
  have hmasked := h.masked
  have hroom := h.room
  have haligned := h.aligned
  have hfloor : (VirtAddr.ofUsize a).floor = a % 2 ^ 39 / 4096 := rfl
  apply h.mapped
  · omega
  · omega

/-- Addresses of the stack are masked to different ones. -/
theorem floor_eq (h : UserStack m ms top) (hle : top - 8192 ≤ a) (hlt : a < top) :
    (VirtAddr.ofUsize a).floor = (top - 8192) % 2 ^ 39 / 4096 + (a - (top - 8192)) / 4096 := by
  have hmasked := h.masked
  have hroom := h.room
  have haligned := h.aligned
  show a % 2 ^ 39 / 4096 = _
  omega

end UserStack

/-! ## What is on the stack -/

/-- The stack holds what `M` has at its virtual addresses. -/
def StackHolds (m : Mem) (ms : MemorySet) (top : Nat) (M : Mem) : Prop :=
  ∀ a, top - 8192 ≤ a → a < top → userByte m (PageTable.fromToken ms.token) a = some (M a)

/-- The address space `ms` as it was over `m₀`, with the stack below `top`, which holds what `M` has. -/
structure OnStack (L : Layout) (rest : List Nat) (m₀ : Mem) (ms : MemorySet) (top : Nat) (s : Phys) (M : Mem) :
    Prop where
  good : Good L rest s ms
  framed : ms.Framed
  stack : UserStack m₀ ms top
  same : ∀ v, ms.translate s.mem v = ms.translate m₀ v
  holds : StackHolds s.mem ms top M

theorem translatedRefmut_run (h : Good L rest s ms) (he : ms.translate s.mem (VirtAddr.ofUsize a).floor = some e) :
    (translatedRefmut ms.token a).run s = some (e.ppn * 4096 + a % 4096, s) := by
  rw [translatedRefmut, Comp.run_bind, Comp.run_get, Option.bind_some, h.translateVa_eq, he, Option.map_some]
  rfl

theorem Good.userByte (h : Good L rest s ms) (he : ms.translate s.mem (VirtAddr.ofUsize a).floor = some e) :
    userByte s.mem (PageTable.fromToken ms.token) a = some (s.mem (e.ppn * 4096 + a % 4096)) := by
  rw [Mm.userByte, h.translateVa_eq, he, Option.map_some, Option.map_some]

namespace OnStack

variable {M : Mem} {bs : List UInt8}

theorem start (h : Good L rest s ms) (hfr : ms.Framed) (hstack : UserStack s.mem ms top) :
    ∃ M, OnStack L rest s.mem ms top s M := by
  refine ⟨fun a => (Mm.userByte s.mem (PageTable.fromToken ms.token) a).getD 0, h, hfr, hstack, fun _ => rfl, ?_⟩
  intro a hle hlt
  obtain ⟨e, he, -⟩ := hstack.page hle hlt
  simp only
  rw [h.userByte he, Option.getD_some]

theorem page (h : OnStack L rest m₀ ms top s M) (hle : top - 8192 ≤ a) (hlt : a < top) :
    ∃ e, ms.translate s.mem (VirtAddr.ofUsize a).floor = some e ∧ e.flags = stackFlags := by
  rw [h.same]
  exact h.stack.page hle hlt

theorem userStack (h : OnStack L rest m₀ ms top s M) : UserStack s.mem ms top := by
  refine ⟨h.stack.aligned, h.stack.room, h.stack.lt, h.stack.masked, fun v hv hlt => ?_⟩
  rw [h.same]
  exact h.stack.mapped v hv hlt

/-- **A store inside a page of the stack** is a store at the virtual address. -/
theorem store (h : OnStack L rest m₀ ms top s M) (hle : top - 8192 ≤ a) (hlt : a < top)
    (hfits : a % 4096 + bs.length ≤ 4096) (he : ms.translate s.mem (VirtAddr.ofUsize a).floor = some e) :
    OnStack L rest m₀ ms top { s with mem := s.mem.write (e.ppn * 4096 + a % 4096) bs } (M.write a bs) := by
  have hpa : (e.ppn * 4096 + a % 4096) / 4096 = e.ppn := by omega
  have hoff : (e.ppn * 4096 + a % 4096) % 4096 + bs.length ≤ 4096 := by omega
  obtain ⟨hgood, hsame⟩ := h.good.store_keeps h.framed he hpa hoff rfl
  refine ⟨hgood, h.framed, h.stack, fun v => (hsame v).trans (h.same v), ?_⟩
  intro b hble hblt
  obtain ⟨e', he', -⟩ := h.page hble hblt
  have hbyte := h.holds b hble hblt
  rw [h.good.userByte he', Option.some.injEq] at hbyte
  rw [hgood.userByte ((hsame _).trans he')]
  apply congrArg some
  show s.mem.write (e.ppn * 4096 + a % 4096) bs (e'.ppn * 4096 + b % 4096) = M.write a bs b
  have hroom := h.stack.room
  have haligned := h.stack.aligned
  have hfa := h.stack.floor_eq hle hlt
  have hfb := h.stack.floor_eq hble hblt
  by_cases hpage : (VirtAddr.ofUsize b).floor = (VirtAddr.ofUsize a).floor
  · rw [hpage, he] at he'
    cases he'
    by_cases hin : a ≤ b ∧ b < a + bs.length
    · obtain ⟨k, rfl⟩ := Nat.exists_eq_add_of_le hin.1
      have hoff : (a + k) % 4096 = a % 4096 + k := by omega
      have hk : k < bs.length := by omega
      rw [hoff, ← Nat.add_assoc, Mem.write_of_mem hk, Mem.write_of_mem hk]
    · rw [Mem.write_of_not_mem (by omega), Mem.write_of_not_mem (by omega), hbyte]
  · have hne : e'.ppn ≠ e.ppn := fun hc => hpage
      (h.good.ppn_inj h.framed (VirtAddr.floor_lt _) (VirtAddr.floor_lt _) he' he hc)
    rw [Mem.write_of_not_mem (by omega), Mem.write_of_not_mem (by omega), hbyte]

/-- A store into a page that is not the user's leaves the stack. -/
theorem storeOther (h : OnStack L rest m₀ ms top s M) {v : Nat} (hv : v < 2 ^ 27)
    (he : ms.translate s.mem v = some e) (hflags : e.flags ≠ stackFlags) {pa : Nat} (hpa : pa / 4096 = e.ppn)
    (hfits : pa % 4096 + bs.length ≤ 4096) :
    OnStack L rest m₀ ms top { s with mem := s.mem.write pa bs } M := by
  obtain ⟨hgood, hsame⟩ := h.good.store_keeps h.framed he hpa hfits rfl
  refine ⟨hgood, h.framed, h.stack, fun v => (hsame v).trans (h.same v), ?_⟩
  intro b hble hblt
  obtain ⟨e', he', hflags'⟩ := h.page hble hblt
  have hne : e'.ppn ≠ e.ppn := by
    intro hc
    have hpage := h.good.ppn_inj h.framed (VirtAddr.floor_lt _) hv he' he hc
    rw [hpage, he] at he'
    cases he'
    exact hflags hflags'
  rw [hgood.userByte ((hsame _).trans he'), ← h.holds b hble hblt, h.good.userByte he']
  apply congrArg some
  apply Mem.write_of_not_mem
  omega

/-- The frames of others may be given back. -/
theorem other {rest' : List Nat} (h : OnStack L rest m₀ ms top s M) (hmem : s'.mem = s.mem)
    (hh : Held L.firstFrame s'.frames (ms.owned ++ rest')) : OnStack L rest' m₀ ms top s' M := by
  have hsame : SameOn ms.pageTable.frames s.mem s'.mem := by
    rw [hmem]
    exact SameOn.refl _ _
  refine ⟨h.good.congr hsame hh, h.framed, h.stack, ?_, ?_⟩
  · rw [hmem]
    exact h.same
  · rw [hmem]
    exact h.holds

end OnStack

end RCore.Mm
