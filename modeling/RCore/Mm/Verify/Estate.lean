import RCore.Mm.Verify.Spaces

/-!
# Many address spaces side by side

`Good` is about one memory set and lists the frames of all others. An `Estate` is the whole: the
address space of the kernel, those of any number of processes and single frames, which together hold
every frame that is out, each once. What an operation does to one address space it says about `Good`
with the rest of the estate as the frames of the others; `Estate.put` and `Estate.putKernel` turn that
into what it does to the estate.
-/

namespace RCore.Mm

variable {L : Layout} {rest fs : List Nat} {s s' : Phys} {ms ks ks' : MemorySet} {m m' : Mem}

/-! ## The part of the invariant that is about memory -/

/-- `Good` without the allocator. -/
structure Sound (L : Layout) (m : Mem) (ms : MemorySet) : Prop where
  tables : Tables m ms.pageTable
  translate : ∀ v e, v < 2 ^ 27 → (ms.translate m v = some e ↔ (v, e) ∈ ms.entries L)
  nodup : ((ms.entries L).map Prod.fst).Nodup
  area : ∀ area ∈ ms.areas, AreaOk area

theorem Good.sound (h : Good L rest s ms) : Sound L s.mem ms :=
  ⟨h.owns.tables, h.translate, h.nodup, h.area⟩

theorem Sound.good (h : Sound L s.mem ms) (hh : Held L.firstFrame s.frames (ms.owned ++ rest)) :
    Good L rest s ms := by
  refine ⟨⟨h.tables, ?_⟩, h.translate, h.nodup, h.area⟩
  rw [← List.append_assoc]
  exact hh

theorem Sound.congr (h : Sound L m ms) (hs : SameOn ms.pageTable.frames m m') : Sound L m' ms := by
  refine ⟨h.tables.congr hs, ?_, h.nodup, h.area⟩
  intro v e hv
  rw [← h.translate v e hv, MemorySet.translate, MemorySet.translate, h.tables.translate_congr hs]

/-- The address space of a process, and the frame its trap context is promised to be in. -/
structure Holding where
  space : MemorySet
  trap : Option Nat

/-- The invariant of such an address space. -/
structure Holding.Ok (L : Layout) (m : Mem) (h : Holding) : Prop where
  sound : Sound L m h.space
  framed : h.space.Framed
  trap : ∀ ppn, h.trap = some ppn → h.space.TrapPage m ppn

theorem MemorySet.TrapPage.congr {ppn : Nat} (h : ms.TrapPage m ppn)
    (ht : ∀ v, ms.translate m' v = ms.translate m v) : ms.TrapPage m' ppn := by
  obtain ⟨e, he, hp⟩ := h
  exact ⟨e, (ht _).trans he, hp⟩

theorem Holding.Ok.congr {h : Holding} (hok : h.Ok L m) (hs : SameOn h.space.pageTable.frames m m') :
    h.Ok L m' :=
  ⟨hok.sound.congr hs, hok.framed, fun ppn hp =>
    (hok.trap ppn hp).congr fun v => hok.sound.tables.translate_congr hs v⟩

/-- The frame that was promised for the trap context is the one that is found there. -/
theorem Holding.Ok.trap_eq {c : MemorySet} {traps : Bool} {ppn : Nat}
    (hok : Holding.Ok L m ⟨c, if traps then some ppn else none⟩) {e : PageTableEntry}
    (he : c.translate m trapContextVpn = some e) :
    (if traps then some ppn else none) = if traps then some e.ppn else none := by
  cases traps with
  | false => rfl
  | true =>
    obtain ⟨e₀, he₀, hppn, _⟩ := hok.trap ppn rfl
    have hee : e = e₀ := Option.some.inj (he.symm.trans he₀)
    rw [hee, hppn]

/-! ## Estates -/

/-- All frames of an estate. -/
def framesOf (ks : MemorySet) (fs : List Nat) (hs : List Holding) : List Nat :=
  ks.owned ++ (fs ++ hs.flatMap fun h => h.space.owned)

/-- **An estate**: the address space of the kernel, single frames, and the address spaces of processes. -/
structure Estate (L : Layout) (s : Phys) (ks : MemorySet) (fs : List Nat) (hs : List Holding) :
    Prop where
  held : Held L.firstFrame s.frames (framesOf ks fs hs)
  kernel : Sound L s.mem ks
  full : ks.Full
  user : ∀ h ∈ hs, h.Ok L s.mem

namespace Estate

variable {hs hs' : List Holding} {h h' : Holding}

theorem perm (he : Estate L s ks fs hs) {fs' : List Nat} (hf : fs.Perm fs') (hp : hs.Perm hs') :
    Estate L s ks fs' hs' := by
  refine ⟨he.held.perm ?_, he.kernel, he.full, fun h hh => he.user h (hp.mem_iff.mpr hh)⟩
  exact (hf.append (hp.flatMap_right _)).append_left _

theorem mem_owned {f : Nat} (hh : h ∈ hs) (hf : f ∈ h.space.owned) : f ∈ framesOf ks fs hs :=
  List.mem_append_right _ (List.mem_append_right _ (List.mem_flatMap.mpr ⟨h, hh, hf⟩))

/-- The frames of the first process, and all others. -/
theorem framesOf_cons (ks : MemorySet) (fs : List Nat) (h : Holding) (hs : List Holding) :
    (framesOf ks fs (h :: hs)).Perm (h.space.owned ++ framesOf ks fs hs) := by
  rw [framesOf, framesOf, List.flatMap_cons]
  have h₁ : (fs ++ (h.space.owned ++ hs.flatMap fun h => h.space.owned)).Perm
      (h.space.owned ++ (fs ++ hs.flatMap fun h => h.space.owned)) := List.perm_append_comm_assoc _ _ _
  exact (h₁.append_left _).trans (List.perm_append_comm_assoc _ _ _)

theorem good (he : Estate L s ks fs (h :: hs)) : Good L (framesOf ks fs hs) s h.space :=
  (he.user h List.mem_cons_self).sound.good (he.held.perm (framesOf_cons ks fs h hs))

theorem good_of_mem (he : Estate L s ks fs hs) (hh : h ∈ hs) : ∃ rest, Good L rest s h.space := by
  obtain ⟨l₁, l₂, rfl⟩ := List.append_of_mem hh
  exact ⟨_, (he.perm (List.Perm.refl _) List.perm_middle).good⟩

/-- Everybody's invariant is kept by what leaves everybody's frames alone. -/
theorem others_congr (hk : Sound L s.mem ks) (hu : ∀ h ∈ hs, h.Ok L s.mem)
    (hsame : SameOn (framesOf ks fs hs) s.mem s'.mem) :
    Sound L s'.mem ks ∧ ∀ h ∈ hs, h.Ok L s'.mem := by
  constructor
  · apply hk.congr (hsame.mono _)
    intro f hf
    exact List.mem_append_left _ (List.mem_append_left _ hf)
  · intro h hh
    apply (hu h hh).congr (hsame.mono _)
    intro f hf
    exact mem_owned hh (List.mem_append_left _ hf)

/-- **A new address space** made next to the others. -/
theorem add (he : Estate L s ks fs hs) (hg : Good L (framesOf ks fs hs) s' h.space)
    (hsame : SameOn (framesOf ks fs hs) s.mem s'.mem) (hfr : h.space.Framed)
    (htrap : ∀ ppn, h.trap = some ppn → h.space.TrapPage s'.mem ppn) : Estate L s' ks fs (h :: hs) := by
  obtain ⟨hk, hu⟩ := others_congr he.kernel he.user hsame
  refine ⟨hg.held.perm (framesOf_cons ks fs h hs).symm, hk, he.full, ?_⟩
  intro x hx
  rcases List.mem_cons.mp hx with rfl | hx
  · exact ⟨hg.sound, hfr, htrap⟩
  · exact hu x hx

/-- **A change of one address space.** -/
theorem put (he : Estate L s ks fs (h :: hs)) (hg : Good L (framesOf ks fs hs) s' h'.space)
    (hsame : SameOn (framesOf ks fs hs) s.mem s'.mem) (hfr : h'.space.Framed)
    (htrap : ∀ ppn, h'.trap = some ppn → h'.space.TrapPage s'.mem ppn) : Estate L s' ks fs (h' :: hs) := by
  obtain ⟨hk, hu⟩ := others_congr he.kernel (fun x hx => he.user x (List.mem_cons_of_mem _ hx)) hsame
  refine ⟨hg.held.perm (framesOf_cons ks fs h' hs).symm, hk, he.full, ?_⟩
  intro x hx
  rcases List.mem_cons.mp hx with rfl | hx
  · exact ⟨hg.sound, hfr, htrap⟩
  · exact hu x hx

/-- A store into a page of one address space changes nobody's translations. -/
theorem store_translate (he : Estate L s ks fs hs) (hh : h ∈ hs) {v : Nat} {e : PageTableEntry}
    (ht : h.space.translate s.mem v = some e) {a : Nat} {bs : List UInt8} (ha : a / 4096 = e.ppn)
    (hb : a % 4096 + bs.length ≤ 4096) (hh' : h' ∈ hs) (w : Nat) :
    h'.space.translate (s.mem.write a bs) w = h'.space.translate s.mem w := by
  obtain ⟨hs', hperm⟩ : ∃ hs', hs.Perm (h :: hs') := by
    obtain ⟨l₁, l₂, rfl⟩ := List.append_of_mem hh
    exact ⟨l₁ ++ l₂, List.perm_middle⟩
  have hcons := he.perm (List.Perm.refl _) hperm
  have happart := hcons.good.ppn_apart (he.user h hh).framed ht
  refine (he.user h' hh').sound.tables.translate_congr (SameOn.write ?_ ha hb s.mem) w
  intro hc
  apply happart
  rcases List.mem_cons.mp (hperm.mem_iff.mp hh') with rfl | hin
  · exact List.mem_append_left _ hc
  · exact List.mem_append_right _ (mem_owned hin (List.mem_append_left _ hc))

/-- **A store** into a page of one address space. -/
theorem store (he : Estate L s ks fs hs) (hh : h ∈ hs) {v : Nat} {e : PageTableEntry}
    (ht : h.space.translate s.mem v = some e) {a : Nat} {bs : List UInt8} (ha : a / 4096 = e.ppn)
    (hb : a % 4096 + bs.length ≤ 4096) :
    Estate L { s with mem := s.mem.write a bs } ks fs hs := by
  obtain ⟨hs', hperm⟩ : ∃ hs', hs.Perm (h :: hs') := by
    obtain ⟨l₁, l₂, rfl⟩ := List.append_of_mem hh
    exact ⟨l₁ ++ l₂, List.perm_middle⟩
  have hcons := he.perm (List.Perm.refl _) hperm
  have hok := hcons.user h List.mem_cons_self
  obtain ⟨hg, hk⟩ := hcons.good.store hok.framed ht ha hb rfl
  refine (hcons.put hg hk.same hok.framed fun ppn hp => ?_).perm (List.Perm.refl _) hperm.symm
  exact (hok.trap ppn hp).congr fun w => he.store_translate hh ht ha hb hh w

/-- One address space is dropped and its frames are given back. -/
theorem drop (he : Estate L s ks fs (h :: hs)) (hh : Held L.firstFrame s'.frames (framesOf ks fs hs))
    (hmem : s'.mem = s.mem) : Estate L s' ks fs hs := by
  refine ⟨hh, ?_, he.full, ?_⟩
  · rw [hmem]
    exact he.kernel
  · intro x hx
    rw [hmem]
    exact he.user x (List.mem_cons_of_mem _ hx)

/-- One address space is given up: of its frames those in `gs` stay. -/
theorem strip (he : Estate L s ks fs (h :: hs)) {gs : List Nat}
    (hh : Held L.firstFrame s'.frames (gs ++ framesOf ks fs hs)) (hmem : s'.mem = s.mem) :
    Estate L s' ks (gs ++ fs) hs := by
  have hperm : (gs ++ framesOf ks fs hs).Perm (framesOf ks (gs ++ fs) hs) := by
    rw [framesOf, framesOf, List.append_assoc]
    exact List.perm_append_comm_assoc _ _ _
  refine ⟨hh.perm hperm, ?_, he.full, ?_⟩
  · rw [hmem]
    exact he.kernel
  · intro x hx
    rw [hmem]
    exact he.user x (List.mem_cons_of_mem _ hx)

/-- Single frames are given back. -/
theorem release (he : Estate L s ks (rest ++ fs) hs)
    (hh : Held L.firstFrame s'.frames (framesOf ks fs hs)) (hmem : s'.mem = s.mem) :
    Estate L s' ks fs hs := by
  refine ⟨hh, ?_, he.full, ?_⟩
  · rw [hmem]
    exact he.kernel
  · intro x hx
    rw [hmem]
    exact he.user x hx

theorem goodKernel (he : Estate L s ks fs hs) :
    Good L (fs ++ hs.flatMap fun h => h.space.owned) s ks := he.kernel.good he.held

/-- **A change of the kernel's address space.** -/
theorem putKernel (he : Estate L s ks fs hs)
    (hg : Good L (fs ++ hs.flatMap fun h => h.space.owned) s' ks') (hfull : ks'.Full)
    (hsame : SameOn (fs ++ hs.flatMap fun h => h.space.owned) s.mem s'.mem) : Estate L s' ks' fs hs := by
  refine ⟨hg.held, hg.sound, hfull, ?_⟩
  intro x hx
  apply (he.user x hx).congr (hsame.mono _)
  intro f hf
  exact List.mem_append_right _ (List.mem_flatMap.mpr ⟨x, hx, List.mem_append_left _ hf⟩)

end Estate

/-! ## What changes of an address space leave of it -/

theorem Pushed.translate {area : MapArea} {ms' : MemorySet} (hp : Pushed L rest s ms area s' ms')
    (h : Good L rest s ms) {v : Nat} {e : PageTableEntry} (hv : v < 2 ^ 27)
    (he : ms.translate s.mem v = some e) : ms'.translate s'.mem v = some e := by
  obtain ⟨es, _, hareas⟩ := hp.areas
  rw [h.translate v e hv] at he
  rw [hp.good.translate v e hv, MemorySet.entries, hareas, List.flatMap_append, ← List.cons_append]
  exact List.mem_append_left _ he

theorem Removed.translate {vpns : List Nat} {ms' : MemorySet} (hR : Removed L rest s ms vpns s' ms')
    (h : Good L rest s ms) {v : Nat} {e : PageTableEntry} (hv : v < 2 ^ 27) (hout : v ∉ vpns)
    (he : ms.translate s.mem v = some e) : ms'.translate s'.mem v = some e := by
  rw [h.translate v e hv] at he
  rw [hR.good.translate v e hv, hR.entries]
  exact ⟨he, hout⟩

theorem MemorySet.TrapPage.of_translate {ms' : MemorySet} {ppn : Nat} (h : ms.TrapPage m ppn)
    (ht : ∀ e, ms.translate m trapContextVpn = some e → ms'.translate m' trapContextVpn = some e) :
    ms'.TrapPage m' ppn := by
  obtain ⟨e, he, hp⟩ := h
  exact ⟨e, ht e he, hp⟩

/-- The copy of a space with a trap context has one. -/
theorem Copying.trapPage {c : MemorySet} (h : Copying L rest s ms ms.areas s' c) (hp : Good L rest s ms)
    (hpf : ms.Framed) {ppn : Nat} (ht : ms.TrapPage s.mem ppn) : ∃ ppn', c.TrapPage s'.mem ppn' := by
  obtain ⟨e, he, _, hflags⟩ := ht
  have hmap := h.flags hp hpf (v := trapContextVpn) (by decide)
  rw [he, Option.map_some] at hmap
  obtain ⟨e', he', hflags'⟩ := Option.map_eq_some_iff.mp hmap
  exact ⟨e'.ppn, e', he', rfl, hflags'.trans hflags⟩

end RCore.Mm
