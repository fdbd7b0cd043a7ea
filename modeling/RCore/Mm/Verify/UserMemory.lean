import RCore.Mm.UserMemory
import RCore.Mm.Verify.Munmap

/-!
# The slices of `translated_byte_buffers`

The loop keeps `start` as a `usize` and computes with masked addresses. If the end of the buffer is below
`2 ^ 39`, nothing is masked and every round goes on to the next page or to the end. If it is not, the end
is never reached: the rounds go up to the masked end and stay there, unless a page on the way is not
mapped.
-/

namespace RCore.Mm

variable {s : Phys} {pt : PageTable} {stop start fuel : Nat}

/-! ## One round -/

theorem translatedRound_unmapped (hnone : pt.translate s.mem (start % 2 ^ 39 / 4096) = none) :
    (translatedRound pt stop start).run s = none := by
  have hfloor : (VirtAddr.ofUsize start).floor = start % 2 ^ 39 / 4096 := rfl
  rw [translatedRound]
  simp only [hfloor, Comp.run_bind, Comp.run_get, Option.bind_some, hnone, Comp.unwrap, Comp.run_panic,
    Option.bind_none]

/-- The `start` after a round from `start`. -/
def nextStart (stop start : Nat) : Nat := min ((start % 2 ^ 39 / 4096 + 1) * 4096) (stop % 2 ^ 39)

/-- A round goes to the end of the page or to the masked end. -/
theorem translatedRound_next {r : (Slice × Nat) × Phys}
    (hrun : (translatedRound pt stop start).run s = some r) : r.1.2 = nextStart stop start ∧ r.2 = s := by
  have hwlp : (translatedRound pt stop start).wlp (fun r s' => r.2 = nextStart stop start ∧ s' = s) s := by
    rw [translatedRound]
    simp only [Comp.wlp_bind, Comp.wlp_get, Comp.wlp_unwrap]
    intro pte _
    split
    · rw [Comp.wlp_pure]
      exact ⟨rfl, rfl⟩
    · simp only [Comp.wlp_bind, Comp.wlp_assert, Comp.wlp_pure]
      intro _
      exact ⟨rfl, trivial⟩
  exact hwlp r.1 r.2 hrun

/-- A round that moves forward pushes the bytes up to where it goes. -/
theorem translatedRound_forward {e : PageTableEntry} (he : pt.translate s.mem (start % 2 ^ 39 / 4096) = some e)
    (hlt : start % 2 ^ 39 < nextStart stop start) :
    (translatedRound pt stop start).run s = some ((⟨e.ppn * 4096 + start % 2 ^ 39 % 4096,
      nextStart stop start - start % 2 ^ 39⟩, nextStart stop start), s) := by
  have hwp : (translatedRound pt stop start).wp (fun r s' => r = (⟨e.ppn * 4096 + start % 2 ^ 39 % 4096,
      nextStart stop start - start % 2 ^ 39⟩, nextStart stop start) ∧ s' = s) s := by
    have hle : nextStart stop start ≤ (start % 2 ^ 39 / 4096 + 1) * 4096 := Nat.min_le_left _ _
    rw [translatedRound]
    simp only [Comp.wp_bind, Comp.wp_get, Comp.wp_unwrap]
    refine ⟨e, he, ?_⟩
    split
    · next hend =>
      have hmod : nextStart stop start % 4096 = 0 := hend
      have hlen : 4096 - start % 2 ^ 39 % 4096 = nextStart stop start - start % 2 ^ 39 := by omega
      rw [Comp.wp_pure, ← hlen]
      exact ⟨rfl, rfl⟩
    · next hend =>
      have hmod : nextStart stop start % 4096 ≠ 0 := hend
      have hlen : nextStart stop start % 4096 - start % 2 ^ 39 % 4096 = nextStart stop start - start % 2 ^ 39 := by
        omega
      have hoff : start % 2 ^ 39 % 4096 ≤ nextStart stop start % 4096 := by omega
      simp only [Comp.wp_bind, Comp.wp_assert, Comp.wp_pure]
      rw [← hlen]
      exact ⟨hoff, rfl, trivial⟩
  obtain ⟨r, s', hrun, rfl, rfl⟩ := hwp
  exact hrun

theorem translatedLoop_over (hover : ¬start < stop) (v : List Slice) :
    (translatedLoop pt stop fuel start v).run s = some (some v, s) := by
  cases fuel with
  | zero => rw [translatedLoop, if_neg hover, Comp.run_pure]
  | succ fuel => rw [translatedLoop, if_neg hover, Comp.run_pure]

/-! ## Buffers that end below `2 ^ 39` -/

/-- The physical addresses of a piece of a page. -/
theorem addresses_piece {e : PageTableEntry} {next : Nat} (he : pt.translate s.mem (start / 4096) = some e)
    (hnext : next ≤ (start / 4096 + 1) * 4096) (hlt : next ≤ 2 ^ 39) :
    (Slice.addresses ⟨e.ppn * 4096 + start % 4096, next - start⟩).map some =
      (List.range' start (next - start)).map fun a => pt.translateVa s.mem (VirtAddr.ofUsize a) := by
  rw [Slice.addresses, List.range'_eq_map_range, List.range'_eq_map_range, List.map_map, List.map_map]
  apply List.map_congr_left
  intro i hi
  have hlen : i < next - start := List.mem_range.mp hi
  have hmask : (start + i) % 2 ^ 39 = start + i := Nat.mod_eq_of_lt (by omega)
  have hfloor : (VirtAddr.ofUsize (start + i)).floor = start / 4096 := by
    show (start + i) % 2 ^ 39 / 4096 = start / 4096
    rw [hmask]
    omega
  have hoff : (VirtAddr.ofUsize (start + i)).pageOffset = start % 4096 + i := by
    rw [VirtAddr.pageOffset_ofUsize]
    omega
  show some (e.ppn * 4096 + start % 4096 + i) = pt.translateVa s.mem (VirtAddr.ofUsize (start + i))
  rw [PageTable.translateVa_eq, hfloor, he, Option.map_some, hoff, Nat.add_assoc]

/-- The rounds from `start` on. -/
def roundsLeft (stop start : Nat) : Nat := if start < stop then (stop - 1) / 4096 - start / 4096 + 1 else 0

/-- The slices from `start` on end at the ends of pages, and the last one at `stop`. -/
def CutAtPages (stop : Nat) : Nat → List Slice → Prop
  | start, [] => start = stop
  | start, b :: bs => start < stop ∧ start + b.len = min ((start / 4096 + 1) * 4096) stop ∧
      CutAtPages stop (start + b.len) bs

/-- The rounds from `start` on push the bytes from there to the end. -/
theorem translatedLoop_exact (hstop : stop < 2 ^ 39) (hle : start ≤ stop)
    (hmapped : ∀ a, start ≤ a → a < stop → pt.translate s.mem (a / 4096) ≠ none) :
    ∃ bs, (∀ fuel v, roundsLeft stop start ≤ fuel →
        (translatedLoop pt stop fuel start v).run s = some (some (v ++ bs), s)) ∧
      (bs.flatMap Slice.addresses).map some =
        (List.range' start (stop - start)).map (fun a => pt.translateVa s.mem (VirtAddr.ofUsize a)) ∧
      (∀ b ∈ bs, 0 < b.len ∧ b.start % 4096 + b.len ≤ 4096) ∧ CutAtPages stop start bs := by
  induction hn : stop - start using Nat.strong_induction_on generalizing start with
  | _ n ih =>
    by_cases hlt : start < stop
    · obtain ⟨e, he⟩ := Option.ne_none_iff_exists'.mp (hmapped start (Nat.le_refl _) hlt)
      have hmask : start % 2 ^ 39 = start := Nat.mod_eq_of_lt (by omega)
      have hnext : nextStart stop start = min ((start / 4096 + 1) * 4096) stop := by
        rw [nextStart, hmask, Nat.mod_eq_of_lt hstop]
      have hforward : start < nextStart stop start := by
        rw [hnext]
        omega
      have hpage : nextStart stop start ≤ (start / 4096 + 1) * 4096 := hnext ▸ Nat.min_le_left _ _
      have hend : nextStart stop start ≤ stop := hnext ▸ Nat.min_le_right _ _
      have hround : (translatedRound pt stop start).run s = some ((⟨e.ppn * 4096 + start % 2 ^ 39 % 4096,
          nextStart stop start - start % 2 ^ 39⟩, nextStart stop start), s) :=
        translatedRound_forward (by rw [hmask]; exact he) (by rw [hmask]; exact hforward)
      rw [hmask] at hround
      have hrounds : roundsLeft stop (nextStart stop start) + 1 ≤ roundsLeft stop start := by
        unfold roundsLeft
        rw [if_pos hlt]
        split <;> omega
      generalize nextStart stop start = next at hround hforward hpage hend hrounds hnext
      obtain ⟨bs, hrun, haddr, hok, hcut⟩ := ih (stop - next) (by omega) hend
        (fun a ha hlta => hmapped a (by omega) hlta) rfl
      refine ⟨⟨e.ppn * 4096 + start % 4096, next - start⟩ :: bs, ?_, ?_, ?_, ?_⟩
      · intro fuel v hfuel
        cases fuel with
        | zero => omega
        | succ fuel =>
          rw [translatedLoop, if_pos hlt, Comp.run_bind, hround, Option.bind_some, hrun fuel _ (by omega),
            List.append_assoc, List.singleton_append]
      · have hsplit : List.range' start n = List.range' start (next - start) ++ List.range' next (stop - next) := by
          have happ := @List.range'_append start (next - start) (stop - next) 1
          rw [Nat.one_mul, Nat.add_sub_cancel' (by omega : start ≤ next)] at happ
          rw [happ]
          congr 1
          omega
        rw [hsplit, List.flatMap_cons, List.map_append, List.map_append, haddr,
          addresses_piece he hpage (by omega)]
      · intro b hb
        rcases List.mem_cons.mp hb with rfl | hb
        · show 0 < next - start ∧ (e.ppn * 4096 + start % 4096) % 4096 + (next - start) ≤ 4096
          omega
        · exact hok b hb
      · rw [CutAtPages, Nat.add_sub_cancel' (Nat.le_of_lt hforward)]
        exact ⟨hlt, hnext, hcut⟩
    · have hstart : stop - start = 0 := by omega
      refine ⟨[], fun fuel v _ => ?_, ?_, fun b hb => absurd hb List.not_mem_nil, show start = stop by omega⟩
      · rw [List.append_nil, translatedLoop_over hlt]
      · rw [← hn, hstart]
        rfl

theorem roundsLeft_le (start len : Nat) : roundsLeft (start + len) start ≤ len / 4096 + 2 := by
  unfold roundsLeft
  split <;> omega

/-- A loop over a buffer without empty slices goes through its addresses and panics nowhere. -/
theorem collect_run {σ : Type} {it : UserBufferIterator} (hok : it.Ok) (hfuel : it.left.length < fuel) (t : σ) :
    (it.collect fuel).run t = some (some it.left, t) := by
  induction fuel generalizing it with
  | zero => omega
  | succ fuel ih =>
    obtain ⟨⟨r, it'⟩, t', hrun, hok'⟩ := it.next_ok hok t
    obtain ⟨rfl, _, hhead, htail, _⟩ := it.next_wlp t _ _ hrun
    simp only at hok' hhead htail
    rw [UserBufferIterator.collect, Comp.run_bind, hrun, Option.bind_some]
    cases hleft : it.left with
    | nil =>
      rw [hleft] at hhead
      subst hhead
      rfl
    | cons a rest =>
      rw [hleft] at hhead htail hfuel
      subst hhead
      have hrest := ih hok' (by rw [htail]; exact Nat.lt_of_succ_lt_succ hfuel)
      simp only [List.head?_cons, List.tail_cons] at htail ⊢
      rw [Comp.run_bind, hrest, htail]
      rfl

/-- The slices of a buffer, and where they are cut. -/
theorem translatedByteBuffers_cut {token ptr len : Nat} (hlt : ptr + len < 2 ^ 39)
    (hmapped : ∀ a, ptr ≤ a → a < ptr + len → (PageTable.fromToken token).translate s.mem (pageOf a) ≠ none) :
    ∃ bs, (∀ fuel, len / 4096 + 2 ≤ fuel →
        (translatedByteBuffers fuel token ptr len).run s = some (some bs, s)) ∧
      (bs.flatMap Slice.addresses).map some =
        (List.range' ptr len).map (fun a => (PageTable.fromToken token).translateVa s.mem (VirtAddr.ofUsize a)) ∧
      (∀ b ∈ bs, 0 < b.len ∧ b.start % 4096 + b.len ≤ 4096) ∧ CutAtPages (ptr + len) ptr bs := by
  have hpage : ∀ a, a < ptr + len → pageOf a = a / 4096 := by
    intro a ha
    show a % 2 ^ 39 / 4096 = a / 4096
    rw [Nat.mod_eq_of_lt (by omega)]
  have hend : usizeAdd ptr len = ptr + len := Nat.mod_eq_of_lt (by omega)
  obtain ⟨bs, hrun, haddr, hok, hcut⟩ := @translatedLoop_exact s (PageTable.fromToken token) _ _ hlt
    (Nat.le_add_right ptr len) (fun a ha halt => by
      rw [← hpage a halt]
      exact hmapped a ha halt)
  rw [Nat.add_sub_cancel_left] at haddr
  refine ⟨bs, fun fuel hfuel => ?_, haddr, hok, hcut⟩
  rw [translatedByteBuffers, hend, hrun fuel [] (Nat.le_trans (roundsLeft_le ptr len) hfuel), List.nil_append]

/-- **`translated_byte_buffers` returns the user's bytes**: the slices, one after the other, are the bytes
to which the addresses of the buffer translate, no slice is empty or leaves its frame, and a loop over the
`UserBuffer` goes through these bytes. -/
theorem translatedByteBuffers_exact {token ptr len : Nat} (hlt : ptr + len < 2 ^ 39)
    (hmapped : ∀ a, ptr ≤ a → a < ptr + len → (PageTable.fromToken token).translate s.mem (pageOf a) ≠ none) :
    ∃ bs, (∀ fuel, len / 4096 + 2 ≤ fuel →
        (translatedByteBuffers fuel token ptr len).run s = some (some bs, s)) ∧
      (bs.flatMap Slice.addresses).map some =
        (List.range' ptr len).map (fun a => (PageTable.fromToken token).translateVa s.mem (VirtAddr.ofUsize a)) ∧
      (∀ b ∈ bs, 0 < b.len ∧ b.start % 4096 + b.len ≤ 4096) ∧
      ∀ {σ : Type} (t : σ) fuel, len < fuel →
        ((UserBuffer.mk bs).intoIter.collect fuel).run t = some (some (bs.flatMap Slice.addresses), t) := by
  obtain ⟨bs, hrun, haddr, hok, -⟩ := translatedByteBuffers_cut hlt hmapped
  refine ⟨bs, hrun, haddr, hok, fun t fuel hfuel => ?_⟩
  have hlen : (bs.flatMap Slice.addresses).length = len := by
    have h := congrArg List.length haddr
    rwa [List.length_map, List.length_map, List.length_range'] at h
  refine collect_run (UserBufferIterator.ok_intoIter fun b hb => (hok b hb).1) ?_ t
  rw [UserBufferIterator.left_intoIter, UserBuffer.addresses, hlen]
  exact hfuel

/-- The pages of the ranges of a space that has been built are mapped. -/
theorem Site.mapped {L : Layout} {rest : List Nat} {s₀ : Phys} {ms : MemorySet} {ranges : List (Nat × Nat)} {free : Nat}
    (h : Site L rest s₀ s ms ranges free) (hfr : ms.Framed) {p : Nat × Nat} (hp : p ∈ ranges) {v : Nat}
    (hv : p.1 ≤ v ∧ v < p.2) : (PageTable.fromToken ms.token).translate s.mem v ≠ none := by
  have hmem : v ∈ ms.pages := h.whole.mem_pages hfr (by rw [h.ranges]; exact hp) hv
  rw [h.whole.good.translate_token]
  exact ((h.whole.good.mem_pages_iff hfr
    (h.whole.good.lt_of_key ((h.whole.good.mem_pages hfr).mp hmem).1)).mp hmem).1

/-- Sixteen bytes across the two pages of a stack. -/
theorem translatedByteBuffers_exact_stack : ∃ s ms bs, UserSpace smallKernel [] s ms ∧
    (translatedByteBuffers 2 ms.token 0x12ff8 16).run s = some (some bs, s) ∧
    (bs.flatMap Slice.addresses).length = 16 := by
  obtain ⟨s, ms, hu, h⟩ := exists_loaded
  have hmapped : ∀ a, 0x12ff8 ≤ a → a < 0x12ff8 + 16 →
      (PageTable.fromToken ms.token).translate s.mem (pageOf a) ≠ none := by
    intro a ha halt
    refine h.mapped hu.good.2 (p := (0x12, 0x14)) (by decide) ?_
    show 0x12 ≤ a % 2 ^ 39 / 4096 ∧ a % 2 ^ 39 / 4096 < 0x14
    omega
  obtain ⟨bs, hrun, haddr, -, -⟩ := translatedByteBuffers_exact (by decide) hmapped
  refine ⟨s, ms, bs, hu, hrun 2 (by decide), ?_⟩
  have hlen := congrArg List.length haddr
  rwa [List.length_map, List.length_map, List.length_range'] at hlen

/-! ## Buffers that do not -/

/-- While the masked end is not passed and its page and those on the way are mapped, the loop goes on. -/
theorem translatedLoop_stuck (hstop : 2 ^ 39 ≤ stop) (hle : start ≤ stop % 2 ^ 39)
    (hmapped : ∀ v, start / 4096 ≤ v → v ≤ stop % 2 ^ 39 / 4096 → pt.translate s.mem v ≠ none) (v : List Slice) :
    (translatedLoop pt stop fuel start v).run s = some (none, s) := by
  have hmod := Nat.mod_lt stop (show 0 < 2 ^ 39 by decide)
  have hlt : start < stop := by omega
  induction fuel generalizing start v with
  | zero => rw [translatedLoop, if_pos hlt, Comp.run_pure]
  | succ fuel ih =>
    have hmask : start % 2 ^ 39 = start := Nat.mod_eq_of_lt (by omega)
    have hnext : nextStart stop start = min ((start / 4096 + 1) * 4096) (stop % 2 ^ 39) := by
      rw [nextStart, hmask]
    have hround : ∃ r, (translatedRound pt stop start).run s = some r := by
      obtain ⟨e, he⟩ := Option.ne_none_iff_exists'.mp
        (hmapped (start / 4096) (Nat.le_refl _) (Nat.div_le_div_right hle))
      rcases Nat.lt_or_eq_of_le hle with hfwd | hend
      · refine ⟨_, translatedRound_forward (e := e) (by rw [hmask]; exact he) ?_⟩
        rw [hmask, hnext]
        omega
      · -- at the end: an empty slice, or a whole page
        have hwp : (translatedRound pt stop start).wp (fun _ _ => True) s := by
          rw [translatedRound]
          simp only [Comp.wp_bind, Comp.wp_get, Comp.wp_unwrap]
          refine ⟨e, ?_, ?_⟩
          · show pt.translate s.mem (start % 2 ^ 39 / 4096) = some e
            rw [hmask]
            exact he
          · split
            · rw [Comp.wp_pure]
              trivial
            · simp only [Comp.wp_bind, Comp.wp_assert, Comp.wp_pure, and_true]
              show start % 2 ^ 39 % 4096 ≤ nextStart stop start % 4096
              rw [hmask, hnext]
              omega
        obtain ⟨r, s', hrun, -⟩ := hwp
        exact ⟨_, hrun⟩
    obtain ⟨⟨⟨slice, next⟩, s'⟩, hrun⟩ := hround
    obtain ⟨hnext', rfl⟩ := translatedRound_next hrun
    simp only at hnext'
    rw [hnext] at hnext'
    rw [translatedLoop, if_pos hlt, Comp.run_bind, hrun, Option.bind_some]
    exact ih (by omega) (fun w hw hwe => hmapped w (by omega) hwe) _ (by omega)

/-- If one of these pages is not mapped, the loop panics there. -/
theorem translatedLoop_panics (hstop : 2 ^ 39 ≤ stop) (hle : start ≤ stop % 2 ^ 39) {u : Nat}
    (hu : start / 4096 ≤ u ∧ u ≤ stop % 2 ^ 39 / 4096) (hnone : pt.translate s.mem u = none)
    (hfuel : u - start / 4096 < fuel) (v : List Slice) : (translatedLoop pt stop fuel start v).run s = none := by
  have hmod := Nat.mod_lt stop (show 0 < 2 ^ 39 by decide)
  have hlt : start < stop := by omega
  induction fuel generalizing start v with
  | zero => omega
  | succ fuel ih =>
    have hmask : start % 2 ^ 39 = start := Nat.mod_eq_of_lt (by omega)
    rw [translatedLoop, if_pos hlt, Comp.run_bind]
    cases hrun : (translatedRound pt stop start).run s with
    | none => rfl
    | some r =>
      obtain ⟨⟨slice, next⟩, s'⟩ := r
      obtain ⟨hnext, rfl⟩ := translatedRound_next hrun
      simp only [nextStart, hmask] at hnext
      have hne : u ≠ start / 4096 := by
        rintro rfl
        rw [translatedRound_unmapped (by rw [hmask]; exact hnone)] at hrun
        cases hrun
      rw [Option.bind_some]
      exact ih (by omega) (by omega) (by omega) _ (by omega)

/-- With its end at `2 ^ 39` or above, the loop never returns: its rounds stay below. -/
theorem translatedLoop_never (hstop : 2 ^ 39 ≤ stop) (hlt : start < stop) (v bs : List Slice) (s' : Phys) :
    (translatedLoop pt stop fuel start v).run s ≠ some (some bs, s') := by
  induction fuel generalizing start v with
  | zero =>
    rw [translatedLoop, if_pos hlt, Comp.run_pure]
    exact fun hc => by cases hc
  | succ fuel ih =>
    rw [translatedLoop, if_pos hlt, Comp.run_bind]
    cases hrun : (translatedRound pt stop start).run s with
    | none => exact fun hc => by cases hc
    | some r =>
      obtain ⟨⟨slice, next⟩, s₁⟩ := r
      obtain ⟨hnext, rfl⟩ := translatedRound_next hrun
      have hmod := Nat.mod_lt stop (show 0 < 2 ^ 39 by decide)
      rw [Option.bind_some]
      refine ih ?_ _
      simp only [nextStart] at hnext
      omega

/-- The loop with its end below `2 ^ 39` is over after the rounds that are left. -/
theorem translatedLoop_ends (hstop : stop < 2 ^ 39) (hle : start ≤ stop) (hfuel : roundsLeft stop start ≤ fuel)
    (v : List Slice) (s' : Phys) : (translatedLoop pt stop fuel start v).run s ≠ some (none, s') := by
  induction fuel generalizing start v with
  | zero =>
    have hend : ¬start < stop := by
      intro hlt
      rw [roundsLeft, if_pos hlt] at hfuel
      omega
    rw [translatedLoop, if_neg hend, Comp.run_pure]
    exact fun hc => by cases hc
  | succ fuel ih =>
    rw [translatedLoop]
    split
    · next hlt =>
      rw [Comp.run_bind]
      cases hrun : (translatedRound pt stop start).run s with
      | none => exact fun hc => by cases hc
      | some r =>
        obtain ⟨⟨slice, next⟩, s₁⟩ := r
        obtain ⟨hnext, rfl⟩ := translatedRound_next hrun
        rw [Option.bind_some]
        refine ih ?_ ?_ _
        · simp only [nextStart] at hnext
          omega
        · rw [roundsLeft, if_pos hlt] at hfuel
          simp only [nextStart] at hnext
          unfold roundsLeft
          split <;> omega
    · rw [Comp.run_pure]
      exact fun hc => by cases hc

/-! ## Whether the loop ends -/

/-- The values of `start` at the head of the loop. -/
inductive LoopHead (s : Phys) (pt : PageTable) (stop ptr : Nat) : Nat → Prop
  | first : LoopHead s pt stop ptr ptr
  | next {start : Nat} {r : (Slice × Nat) × Phys} (h : LoopHead s pt stop ptr start) (hlt : start < stop)
      (hrun : (translatedRound pt stop start).run s = some r) : LoopHead s pt stop ptr r.1.2

/-- Every round panics on a page that is not mapped, or goes forward, and the loop is over after as many
rounds as the buffer can have pages. -/
structure Terminates (s : Phys) (token ptr len : Nat) : Prop where
  progress : ∀ start, LoopHead s (PageTable.fromToken token) (usizeAdd ptr len) ptr start → start < usizeAdd ptr len →
    (PageTable.fromToken token).translate s.mem (pageOf start) = none ∨
      ∃ r, (translatedRound (PageTable.fromToken token) (usizeAdd ptr len) start).run s = some r ∧ start < r.1.2
  bound : ∀ s', (translatedByteBuffers (len / 4096 + 2) token ptr len).run s ≠ some (none, s')

/-- The buffer is empty or wraps around, or ends below `2 ^ 39`, or its first page is not mapped, or one of
the pages from there up to that of the masked end. -/
def EndInReach (m : Mem) (pt : PageTable) (ptr len : Nat) : Prop :=
  usizeAdd ptr len ≤ ptr ∨ usizeAdd ptr len < 2 ^ 39 ∨ pt.translate m (pageOf ptr) = none ∨
    ptr < usizeAdd ptr len % 2 ^ 39 ∧
      ∃ u, ptr / 4096 ≤ u ∧ u ≤ usizeAdd ptr len % 2 ^ 39 / 4096 ∧ pt.translate m u = none

section Ends

variable {ptr len token : Nat}

/-- The rounds before the masked end go forward. -/
theorem forward_of_lt {e : PageTableEntry} (hlt : start < stop % 2 ^ 39)
    (he : pt.translate s.mem (pageOf start) = some e) :
    ∃ r, (translatedRound pt stop start).run s = some r ∧ start < r.1.2 := by
  have hmask : start % 2 ^ 39 = start := by
    have hmod := Nat.mod_lt stop (show 0 < 2 ^ 39 by decide)
    exact Nat.mod_eq_of_lt (by omega)
  have hnext : start % 2 ^ 39 < nextStart stop start := by
    unfold nextStart
    omega
  refine ⟨_, translatedRound_forward he hnext, ?_⟩
  rw [hmask] at hnext
  exact hnext

/-- The heads of a loop whose first page is not mapped, or that is over at once. -/
theorem LoopHead.eq_first (h : LoopHead s pt stop ptr start)
    (hfirst : stop ≤ ptr ∨ pt.translate s.mem (pageOf ptr) = none) : start = ptr := by
  induction h with
  | first => rfl
  | next _ hlt hrun ih =>
    subst ih
    rcases hfirst with hle | hnone
    · omega
    · rw [translatedRound_unmapped hnone] at hrun
      cases hrun

/-- The heads of a loop that starts below the masked end: they are not behind it, and the pages up to them
are mapped. -/
theorem LoopHead.before_end (h : LoopHead s pt stop ptr start) (hptr : ptr < stop % 2 ^ 39) :
    ptr ≤ start ∧ start ≤ stop % 2 ^ 39 ∧
      ∀ v, ptr / 4096 ≤ v → v < start / 4096 → pt.translate s.mem v ≠ none := by
  have hmod := Nat.mod_lt stop (show 0 < 2 ^ 39 by decide)
  induction h with
  | first => exact ⟨Nat.le_refl _, Nat.le_of_lt hptr, fun v _ _ => by omega⟩
  | @next start r _ hlt hrun ih =>
    obtain ⟨hle, hend, hmapped⟩ := ih
    have hmask : start % 2 ^ 39 = start := Nat.mod_eq_of_lt (by omega)
    obtain ⟨hnext, -⟩ := translatedRound_next hrun
    rw [nextStart, hmask] at hnext
    refine ⟨by omega, by omega, fun v hv hvlt => ?_⟩
    by_cases hpage : v = start / 4096
    · rintro hnone
      rw [translatedRound_unmapped (by rw [hmask, ← hpage]; exact hnone)] at hrun
      cases hrun
    · exact hmapped v hv (by omega)

theorem terminates_at_once (hover : usizeAdd ptr len ≤ ptr) : Terminates s token ptr len := by
  refine ⟨fun start hhead hlt => ?_, fun s' => ?_⟩
  · have hstart := hhead.eq_first (Or.inl hover)
    omega
  · rw [translatedByteBuffers, translatedLoop, if_neg (by omega), Comp.run_pure]
    exact fun hc => by cases hc

theorem terminates_below (hlt : ptr < usizeAdd ptr len) (hsum : usizeAdd ptr len = ptr + len)
    (hstop : usizeAdd ptr len < 2 ^ 39) : Terminates s token ptr len := by
  refine ⟨fun start _ hs => ?_, fun s' => ?_⟩
  · cases he : (PageTable.fromToken token).translate s.mem (pageOf start) with
    | none => exact Or.inl rfl
    | some e => exact Or.inr (forward_of_lt (by omega) he)
  · refine translatedLoop_ends hstop (Nat.le_of_lt hlt) ?_ [] s'
    rw [hsum]
    exact roundsLeft_le ptr len

/-- **When `translated_byte_buffers` terminates.** -/
theorem translatedByteBuffers_terminates_iff (hptr : ptr < 2 ^ 64) (hlen : len < 2 ^ 64) :
    Terminates s token ptr len ↔ EndInReach s.mem (PageTable.fromToken token) ptr len := by
  generalize hpt : PageTable.fromToken token = pt
  have hsum : ptr < usizeAdd ptr len → usizeAdd ptr len = ptr + len := by
    unfold usizeAdd
    omega
  have hmod := Nat.mod_lt (usizeAdd ptr len) (show 0 < 2 ^ 39 by decide)
  constructor
  · intro ht
    by_contra hout
    unfold EndInReach at hout
    push Not at hout
    obtain ⟨hlt, hstop, hfirst, hmapped⟩ := hout
    -- the first round goes forward, so the buffer starts below the masked end
    have hfwd := ht.progress ptr .first hlt
    rw [hpt] at hfwd
    obtain ⟨r, hrun, hnext⟩ := hfwd.resolve_left hfirst
    have hend : r.1.2 ≤ usizeAdd ptr len % 2 ^ 39 := by
      rw [(translatedRound_next hrun).1]
      exact Nat.min_le_right _ _
    refine ht.bound s ?_
    rw [translatedByteBuffers, hpt]
    exact translatedLoop_stuck hstop (by omega) (hmapped (by omega)) []
  · rintro (hover | hstop | hfirst | ⟨hend, u, hle, hue, hnone⟩)
    · exact terminates_at_once hover
    · by_cases hlt : ptr < usizeAdd ptr len
      · exact terminates_below hlt (hsum hlt) hstop
      · exact terminates_at_once (by omega)
    · refine ⟨fun start hhead _ => ?_, fun s' => ?_⟩
      · rw [hpt] at hhead ⊢
        rw [hhead.eq_first (Or.inr hfirst)]
        exact Or.inl hfirst
      · rw [translatedByteBuffers, hpt, translatedLoop]
        split
        · rw [Comp.run_bind, translatedRound_unmapped hfirst]
          exact fun hc => by cases hc
        · rw [Comp.run_pure]
          exact fun hc => by cases hc
    · by_cases hstop : usizeAdd ptr len < 2 ^ 39
      · have hmask := Nat.mod_eq_of_lt hstop
        exact terminates_below (by omega) (hsum (by omega)) hstop
      · have hlt : ptr < usizeAdd ptr len := by omega
        have hadd := hsum hlt
        refine ⟨fun start hhead _ => ?_, fun s' => ?_⟩
        · rw [hpt] at hhead ⊢
          obtain ⟨hps, hse, hmapped⟩ := hhead.before_end hend
          have hpage : pageOf start = start / 4096 := by
            show start % 2 ^ 39 / 4096 = start / 4096
            rw [Nat.mod_eq_of_lt (by omega)]
          cases he : pt.translate s.mem (pageOf start) with
          | none => exact Or.inl rfl
          | some e =>
            refine Or.inr (forward_of_lt (Nat.lt_of_le_of_ne hse ?_) he)
            rintro rfl
            -- at the masked end all pages would be mapped
            rw [hpage] at he
            rcases Nat.lt_or_eq_of_le hue with hbefore | rfl
            · exact hmapped u hle hbefore hnone
            · rw [hnone] at he
              cases he
        · rw [translatedByteBuffers, hpt, translatedLoop_panics (by omega) (Nat.le_of_lt hend) ⟨hle, hue⟩ hnone (by omega)]
          exact fun hc => by cases hc

end Ends

theorem terminates_on_stack : ∃ s ms, UserSpace smallKernel [] s ms ∧ Terminates s ms.token 0x12ff8 16 := by
  obtain ⟨s, ms, hu, -⟩ := exists_loaded
  exact ⟨s, ms, hu, (translatedByteBuffers_terminates_iff (by decide) (by decide)).mpr (Or.inr (Or.inl (by decide)))⟩

/-- Eight bytes of the trap context, at its address in the upper half: the loop pushes empty slices for
ever. -/
theorem trapContext_never_ends : ∃ s ms, UserSpace smallKernel [] s ms ∧ ¬Terminates s ms.token trapContext 8 ∧
    ∀ fuel, (translatedByteBuffers fuel ms.token trapContext 8).run s = some (none, s) := by
  obtain ⟨s, ms, hu, h⟩ := exists_loaded
  have hmapped : (PageTable.fromToken ms.token).translate s.mem trapContextVpn ≠ none :=
    h.mapped hu.good.2 (p := (trapContextVpn, trampolineVpn)) (by decide) (by decide)
  obtain ⟨e, he⟩ := Option.ne_none_iff_exists'.mp hmapped
  have hend : usizeAdd trapContext 8 = 2 ^ 64 - 8184 := by decide
  have hnext : nextStart (2 ^ 64 - 8184) trapContext = 2 ^ 39 - 8184 := by decide
  have hstuck : ∀ fuel v, (translatedLoop (PageTable.fromToken ms.token) (2 ^ 64 - 8184) fuel (2 ^ 39 - 8184) v).run s =
      some (none, s) := by
    intro fuel v
    refine translatedLoop_stuck (by decide) (by decide) (fun u hu hle => ?_) v
    have hpage : u = trapContextVpn := by
      unfold trapContextVpn
      omega
    rw [hpage]
    exact hmapped
  have hrun : ∀ fuel, (translatedByteBuffers fuel ms.token trapContext 8).run s = some (none, s) := by
    intro fuel
    rw [translatedByteBuffers, hend]
    cases fuel with
    | zero => rw [translatedLoop, if_pos (by decide), Comp.run_pure]
    | succ fuel =>
      have hround := @translatedRound_forward s _ (2 ^ 64 - 8184) trapContext e he (by decide)
      rw [translatedLoop, if_pos (by decide), Comp.run_bind, hround, Option.bind_some, hnext]
      exact hstuck fuel _
  exact ⟨s, ms, hu, fun ht => ht.bound s (hrun _), hrun⟩

end RCore.Mm
