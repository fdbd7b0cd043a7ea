import Mathlib.Data.List.Perm.Basic
import RCore.EasyFs.BlockCache

/-!
# The block cache keeps the content of the blocks

`Rep v s` says that the state `s` of the cache stands for the contents `v`: a cached block has the
content `v` gives it, and a device has it for every block that is not cached, or cached and not
modified. Every operation of the cache keeps `Rep v`, but `modify`, which changes `v` at one block.
Eviction is safe because it picks an entry nobody else refers to, and its destructor writes the block
back to the device the entry remembers.
-/

namespace RCore.EasyFs

/-! ## Removing an entry of a vector -/

theorem swapRemove_perm {α : Type} {l : List α} {i : Nat} (h : i < l.length) :
    (swapRemove l i).Perm (l.eraseIdx i) := by
  obtain ⟨xs, a, rfl⟩ : ∃ xs a, l = xs ++ [a] := by
    refine ⟨l.dropLast, l.getLast ?_, (List.dropLast_concat_getLast _).symm⟩
    intro hl
    rw [hl] at h
    exact absurd h (Nat.not_lt_zero _)
  have hswap : swapRemove (xs ++ [a]) i = ((xs ++ [a]).set i a).dropLast := by
    rw [swapRemove, List.getLast?_concat]
  rw [hswap]
  by_cases hi : i < xs.length
  · rw [List.set_append_left _ _ hi, List.dropLast_concat, List.eraseIdx_append_of_lt_length hi]
    exact (List.set_perm_cons_eraseIdx hi a).trans (List.perm_append_singleton _ _).symm
  · rw [List.length_append, List.length_singleton] at h
    have hlast : i = xs.length := by omega
    subst hlast
    simp [List.eraseIdx_append_of_length_le]

namespace CacheState

variable {δ : Type}

/-- **The invariant of the cache**, which stands for the contents `v`. -/
structure Rep (v : δ → Nat → Block) (s : CacheState δ) : Prop where
  ids : (s.queue.map Prod.fst).Nodup
  size : s.queue.length ≤ blockCacheMaxNum
  cached : ∀ p ∈ s.queue, ∃ c : BlockCache δ, s.arena[p.2]? = some c ∧ c.blockId = p.1 ∧
    c.cache = v c.blockDevice p.1 ∧ (c.modified = false → s.devices c.blockDevice p.1 = c.cache)
  uncached : ∀ d b, (∀ p ∈ s.queue, ∀ c : BlockCache δ, s.arena[p.2]? = some c → p.1 = b →
    c.blockDevice ≠ d) → s.devices d b = v d b
  handles : ∀ h ∈ s.handles, h.2 ∈ s.queue.map Prod.snd

/-- What every operation but `modify` keeps: the block an `Arc` is for, and every block that the
device has the content of. -/
structure Keeps (v : δ → Nat → Block) (s s' : CacheState δ) : Prop where
  arcs : ∀ (arc : Nat) (c : BlockCache δ), s.arena[arc]? = some c →
    ∃ c' : BlockCache δ, s'.arena[arc]? = some c' ∧
    c'.blockDevice = c.blockDevice ∧ c'.blockId = c.blockId
  settled : ∀ d b, s.devices d b = v d b → s'.devices d b = v d b
  handles : s'.handles = s.handles

namespace Keeps

variable {v : δ → Nat → Block} {s s' s'' : CacheState δ}

theorem refl (v : δ → Nat → Block) (s : CacheState δ) : Keeps v s s :=
  ⟨fun _ c hc => ⟨c, hc, rfl, rfl⟩, fun _ _ h => h, rfl⟩

theorem trans (h : Keeps v s s') (h' : Keeps v s' s'') : Keeps v s s'' := by
  refine ⟨?_, fun d b hd => h'.settled d b (h.settled d b hd), h'.handles.trans h.handles⟩
  intro arc c hc
  obtain ⟨c', hc', hd, hb⟩ := h.arcs arc c hc
  obtain ⟨c'', hc'', hd', hb'⟩ := h'.arcs arc c' hc'
  exact ⟨c'', hc'', hd'.trans hd, hb'.trans hb⟩

end Keeps

/-- The content of block `b` of device `d`: what is cached of it, or what is on the device. -/
def current [DecidableEq δ] (s : CacheState δ) (d : δ) (b : Nat) : Block :=
  match (s.queue.find? fun pair => pair.1 = b).bind fun pair => s.arena[pair.2]? with
  | some c => if c.blockDevice = d then c.cache else s.devices d b
  | none => s.devices d b

namespace Rep

variable {v : δ → Nat → Block} {s : CacheState δ}

theorem empty (devices : δ → Nat → Block) : Rep devices (CacheState.empty devices) := by
  refine ⟨List.nodup_nil, Nat.zero_le _, ?_, fun _ _ _ => rfl, ?_⟩
  · intro p hp
    cases hp
  · intro h hh
    cases hh

/-- Two entries for one block, or with one `Arc`, are the same. -/
theorem entry_ext (h : Rep v s) {p q : Nat × Nat} (hp : p ∈ s.queue) (hq : q ∈ s.queue)
    (he : p.1 = q.1 ∨ p.2 = q.2) : p = q := by
  apply List.inj_on_of_nodup_map h.ids hp hq
  rcases he with he | he
  · exact he
  · obtain ⟨c, hc, hb, _⟩ := h.cached p hp
    obtain ⟨c', hc', hb', _⟩ := h.cached q hq
    rw [he, hc'] at hc
    cases hc
    rw [← hb, ← hb']

theorem arcs_nodup (h : Rep v s) : (s.queue.map Prod.snd).Nodup := by
  apply List.Nodup.map_on
  · intro p hp q hq he
    exact h.entry_ext hp hq (Or.inr he)
  · exact List.Nodup.of_map _ h.ids

variable [DecidableEq δ]

theorem current_eq (h : Rep v s) (d : δ) (b : Nat) : s.current d b = v d b := by
  unfold current
  cases hf : s.queue.find? fun pair => pair.1 = b with
  | none =>
    rw [List.find?_eq_none] at hf
    apply h.uncached
    intro p hp _ _ hb
    exact absurd hb (by simpa using hf p hp)
  | some p =>
    have hp := List.mem_of_find?_eq_some hf
    have hb : p.1 = b := by simpa using List.find?_some hf
    obtain ⟨c, hc, _, hv, _⟩ := h.cached p hp
    rw [Option.bind_some, hc]
    simp only
    by_cases hd : c.blockDevice = d
    · rw [if_pos hd, hv, hd, hb]
    · rw [if_neg hd]
      apply h.uncached
      intro q hq c' hc' hqb
      rw [h.entry_ext hq hp (Or.inl (hqb.trans hb.symm)), hc] at hc'
      cases hc'
      exact hd

end Rep

/-! ## Writing back -/

section Sync

variable [DecidableEq δ] {v : δ → Nat → Block} {s : CacheState δ} {p : Nat × Nat} {c : BlockCache δ}

/-- The state after `sync` of the `Arc` of `c`. -/
def synced (s : CacheState δ) (arc : Nat) (c : BlockCache δ) : CacheState δ :=
  if c.modified = true then
    { s with
      arena := s.arena.set arc { c with modified := false }
      devices := writeBlock c.blockDevice c.blockId c.cache s.devices }
  else s

theorem sync_run {arc : Nat} (hc : s.arena[arc]? = some c) :
    (sync arc).run s = some ((), s.synced arc c) := by
  unfold sync deref synced
  simp only [Comp.run_bind, Comp.run_get, Option.bind_some, hc, Comp.unwrap, Comp.run_pure]
  split
  · simp only [assign, Comp.run_bind, Comp.run_modify, Option.bind_some]
  · rfl

theorem synced_queue (s : CacheState δ) (arc : Nat) (c : BlockCache δ) :
    (s.synced arc c).queue = s.queue := by
  unfold synced
  split <;> rfl

theorem synced_handles (s : CacheState δ) (arc : Nat) (c : BlockCache δ) :
    (s.synced arc c).handles = s.handles := by
  unfold synced
  split <;> rfl

theorem writeBlock_same (d : δ) (b : Nat) (x : Block) (devices : δ → Nat → Block) :
    writeBlock d b x devices d b = x := by
  rw [writeBlock, Function.update_self, Function.update_self]

theorem writeBlock_ne {d d' : δ} {b b' : Nat} (h : d' ≠ d ∨ b' ≠ b) (x : Block)
    (devices : δ → Nat → Block) : writeBlock d b x devices d' b' = devices d' b' := by
  unfold writeBlock
  by_cases hd : d' = d
  · subst hd
    rw [Function.update_self, Function.update_of_ne (h.resolve_left (fun hc => hc rfl))]
  · rw [Function.update_of_ne hd]

omit [DecidableEq δ] in
/-- The cached copy of a block is replaced, and with it the content of the block or the block on the
device. -/
theorem Rep.set {v' devices' : δ → Nat → Block} {c' : BlockCache δ} (h : Rep v s) (hp : p ∈ s.queue)
    (hc : s.arena[p.2]? = some c) (hd : c'.blockDevice = c.blockDevice) (hb : c'.blockId = c.blockId)
    (hother : ∀ d b, d ≠ c.blockDevice ∨ b ≠ p.1 →
      v' d b = v d b ∧ devices' d b = s.devices d b)
    (hcache : c'.cache = v' c.blockDevice p.1)
    (hclean : c'.modified = false → devices' c.blockDevice p.1 = c'.cache) :
    Rep v' { s with arena := s.arena.set p.2 c', devices := devices' } := by
  have hlt : p.2 < s.arena.length := (List.getElem?_eq_some_iff.mp hc).1
  have hset : ∀ q ∈ s.queue, q ≠ p → ∀ c₁, (s.arena.set p.2 c')[q.2]? = some c₁ ↔
      s.arena[q.2]? = some c₁ := by
    intro q hq he c₁
    rw [List.getElem?_set_ne fun hc => he (h.entry_ext hq hp (Or.inr hc.symm))]
  refine ⟨h.ids, h.size, ?_, ?_, h.handles⟩
  · intro q hq
    by_cases he : q = p
    · subst he
      obtain ⟨c₀, hc₀, hb₀, _⟩ := h.cached q hq
      rw [hc] at hc₀
      cases hc₀
      refine ⟨c', List.getElem?_set_self hlt, hb.trans hb₀, ?_, ?_⟩
      · rw [hd]
        exact hcache
      · rw [hd]
        exact hclean
    · obtain ⟨c₁, hc₁, hb₁, hv₁, hclean₁⟩ := h.cached q hq
      have hid : q.1 ≠ p.1 := fun hc => he (h.entry_ext hq hp (Or.inl hc))
      obtain ⟨hv', hdev'⟩ := hother c₁.blockDevice q.1 (Or.inr hid)
      refine ⟨c₁, (hset q hq he c₁).mpr hc₁, hb₁, hv₁.trans hv'.symm, ?_⟩
      intro hm
      exact hdev'.trans (hclean₁ hm)
  · intro d b hno
    have hne : d ≠ c.blockDevice ∨ b ≠ p.1 := by
      by_contra hcon
      rw [not_or, not_not, not_not] at hcon
      exact hno p hp c' (List.getElem?_set_self hlt) hcon.2.symm (hd.trans hcon.1.symm)
    obtain ⟨hv', hdev'⟩ := hother d b hne
    rw [hv']
    refine hdev'.trans (h.uncached d b ?_)
    intro q hq c₁ hc₁ hqb hq'
    by_cases he : q = p
    · subst he
      rw [hc] at hc₁
      cases hc₁
      exact hne.elim (fun hx => hx hq'.symm) (fun hx => hx hqb.symm)
    · exact hno q hq c₁ ((hset q hq he c₁).mpr hc₁) hqb hq'

/-- Writing a block back keeps the contents, and the device has the block then. -/
theorem Rep.synced (h : Rep v s) (hp : p ∈ s.queue) (hc : s.arena[p.2]? = some c) :
    Rep v (s.synced p.2 c) ∧ Keeps v s (s.synced p.2 c) ∧
      (s.synced p.2 c).devices c.blockDevice p.1 = v c.blockDevice p.1 := by
  obtain ⟨c', hc', hb, hv, hclean⟩ := h.cached p hp
  rw [hc] at hc'
  cases hc'
  by_cases hm : c.modified = true
  · have hlt : p.2 < s.arena.length := (List.getElem?_eq_some_iff.mp hc).1
    have hs : s.synced p.2 c = { s with
        arena := s.arena.set p.2 { c with modified := false }
        devices := writeBlock c.blockDevice c.blockId c.cache s.devices } := if_pos hm
    have hw : writeBlock c.blockDevice c.blockId c.cache s.devices =
        writeBlock c.blockDevice p.1 c.cache s.devices := by rw [hb]
    rw [hs, hw]
    refine ⟨h.set hp hc rfl rfl ?_ hv ?_, ⟨?_, ?_, rfl⟩, ?_⟩
    · intro d b hne
      exact ⟨rfl, writeBlock_ne hne _ _⟩
    · intro _
      exact writeBlock_same _ _ _ _
    · intro arc c₁ hc₁
      by_cases he : p.2 = arc
      · subst he
        rw [hc] at hc₁
        cases hc₁
        exact ⟨_, List.getElem?_set_self hlt, rfl, rfl⟩
      · refine ⟨c₁, ?_, rfl, rfl⟩
        simp only
        rw [List.getElem?_set_ne he]
        exact hc₁
    · intro d b hd
      simp only
      by_cases he : d = c.blockDevice ∧ b = p.1
      · rw [he.1, he.2, writeBlock_same, hv]
      · rw [writeBlock_ne (by tauto)]
        exact hd
    · simp only
      rw [writeBlock_same, hv]
  · have hs : s.synced p.2 c = s := if_neg hm
    rw [hs]
    refine ⟨h, Keeps.refl v s, ?_⟩
    rw [hclean (by simpa using hm), hv]

end Sync

/-! ## Eviction -/

section Evict

variable {v : δ → Nat → Block} {s : CacheState δ} {p : Nat × Nat} {c : BlockCache δ}

/-- An entry that nobody refers to and whose block the device has may go. -/
theorem Rep.remove (h : Rep v s) (hp : p ∈ s.queue) (hc : s.arena[p.2]? = some c)
    (hclean : s.devices c.blockDevice p.1 = v c.blockDevice p.1)
    (hfree : p.2 ∉ s.handles.map Prod.snd) {q : List (Nat × Nat)} (hq : s.queue.Perm (p :: q)) :
    Rep v { s with queue := q } := by
  have hmem : ∀ x, x ∈ s.queue ↔ x = p ∨ x ∈ q := fun x => by rw [hq.mem_iff, List.mem_cons]
  have hids := (hq.map Prod.fst).nodup_iff.mp h.ids
  rw [List.map_cons, List.nodup_cons] at hids
  refine ⟨hids.2, ?_, ?_, ?_, ?_⟩
  · have hlen := hq.length_eq
    have hsize := h.size
    rw [List.length_cons] at hlen
    simp only
    omega
  · intro x hx
    exact h.cached x ((hmem x).mpr (Or.inr hx))
  · intro d b hno
    by_cases he : p.1 = b ∧ c.blockDevice = d
    · rw [← he.1, ← he.2]
      exact hclean
    · apply h.uncached
      intro x hx c' hc' hb hd
      rcases (hmem x).mp hx with rfl | hx
      · rw [hc] at hc'
        cases hc'
        exact he ⟨hb, hd⟩
      · exact hno x hx c' hc' hb hd
  · intro x hx
    have hin := h.handles x hx
    rw [List.mem_map] at hin ⊢
    obtain ⟨y, hy, he⟩ := hin
    rcases (hmem y).mp hy with rfl | hy
    · exact absurd (List.mem_map.mpr ⟨x, hx, he.symm⟩) hfree
    · exact ⟨y, hy, he⟩

/-- An entry is alone in holding its `Arc` if no handle has it. -/
theorem Rep.strongCount_eq_one (h : Rep v s) (hp : p ∈ s.queue) :
    s.strongCount p.2 = 1 ↔ p.2 ∉ s.handles.map Prod.snd := by
  unfold strongCount
  rw [List.count_eq_one_of_mem h.arcs_nodup (List.mem_map.mpr ⟨p, hp, rfl⟩), ← List.count_eq_zero]
  omega

variable [DecidableEq δ]

theorem synced_setQueue (s : CacheState δ) (arc : Nat) (c : BlockCache δ) (q : List (Nat × Nat)) :
    ({ s with queue := q } : CacheState δ).synced arc c = { s.synced arc c with queue := q } := by
  unfold synced
  split <;> rfl

/-- The blocks that handles are for have not been written to their devices. -/
def HeldStill (s s' : CacheState δ) : Prop :=
  ∀ h ∈ s.handles, ∀ c : BlockCache δ, s.arena[h.2]? = some c →
    s'.devices c.blockDevice c.blockId = s.devices c.blockDevice c.blockId

theorem Rep.heldStill_synced (h : Rep v s) (hp : p ∈ s.queue) (hc : s.arena[p.2]? = some c)
    (hfree : p.2 ∉ s.handles.map Prod.snd) : HeldStill s (s.synced p.2 c) := by
  intro x hx c' hc'
  obtain ⟨q, hq, harc⟩ := List.mem_map.mp (h.handles x hx)
  obtain ⟨c₁, hc₁, hb₁, _⟩ := h.cached q hq
  obtain ⟨c₂, hc₂, hb₂, _⟩ := h.cached p hp
  rw [harc, hc'] at hc₁
  cases hc₁
  rw [hc] at hc₂
  cases hc₂
  have hne : c'.blockId ≠ c.blockId := by
    intro hc
    have he := h.entry_ext hq hp (Or.inl (hb₁.symm.trans (hc.trans hb₂)))
    exact hfree (List.mem_map.mpr ⟨x, hx, by rw [← harc, he]⟩)
  unfold CacheState.synced
  split
  · exact writeBlock_ne (Or.inr hne) _ _
  · rfl

/-- Room for an entry, or a panic because every entry is in use. -/
theorem makeRoom_run (h : Rep v s) :
    (∃ s', makeRoom.run s = some ((), s') ∧ Rep v s' ∧ Keeps v s s' ∧
      HeldStill s s' ∧ s'.queue.length < blockCacheMaxNum ∧ s'.queue ⊆ s.queue ∧
      (s.queue.length = blockCacheMaxNum → ∃ p ∈ s.queue, p.2 ∉ s.handles.map Prod.snd)) ∨
    (s.queue.length = blockCacheMaxNum ∧ (∀ p ∈ s.queue, p.2 ∈ s.handles.map Prod.snd) ∧
      makeRoom.run s = none) := by
  unfold makeRoom
  simp only [Comp.run_bind, Comp.run_get, Option.bind_some]
  by_cases hfull : s.queue.length = blockCacheMaxNum
  · simp only [if_pos hfull]
    cases hi : s.queue.findIdx? fun pair => s.strongCount pair.2 = 1 with
    | none =>
      right
      refine ⟨hfull, ?_, rfl⟩
      rw [List.findIdx?_eq_none_iff] at hi
      intro p hp
      by_contra hn
      have hone := (h.strongCount_eq_one hp).mpr hn
      have hne := hi p hp
      simp [hone] at hne
    | some i =>
      left
      rw [List.findIdx?_eq_some_iff_getElem] at hi
      obtain ⟨hlt, hone, _⟩ := hi
      have hp : s.queue[i] ∈ s.queue := List.getElem_mem hlt
      have hget : s.queue[i]? = some s.queue[i] := List.getElem?_eq_getElem hlt
      generalize s.queue[i] = p at *
      have hfree := (h.strongCount_eq_one hp).mp (of_decide_eq_true hone)
      have hperm : s.queue.Perm (p :: swapRemove s.queue i) := by
        have hcons := List.getElem_cons_eraseIdx_perm hlt
        have hgi : s.queue[i] = p := by
          rw [List.getElem?_eq_getElem hlt] at hget
          exact Option.some.inj hget
        rw [hgi] at hcons
        exact hcons.symm.trans ((swapRemove_perm hlt).symm.cons p)
      obtain ⟨c, hc, _⟩ := h.cached p hp
      -- the entry was the only holder, so the block cache is dropped and written back
      have hzero : ({ s with queue := swapRemove s.queue i } : CacheState δ).strongCount p.2 = 0 := by
        have hnd := (hperm.map Prod.snd).nodup_iff.mp h.arcs_nodup
        rw [List.map_cons, List.nodup_cons] at hnd
        unfold strongCount
        rw [List.count_eq_zero.mpr hnd.1, List.count_eq_zero.mpr hfree]
      obtain ⟨hrep, hkeep, hclean⟩ := h.synced hp hc
      obtain ⟨c', hc', hd', _⟩ := hkeep.arcs p.2 c hc
      refine ⟨{ s.synced p.2 c with queue := swapRemove s.queue i }, ?_, ?_, ?_,
        h.heldStill_synced hp hc hfree, ?_, ?_, fun _ => ⟨p, hp, hfree⟩⟩
      · simp only [Comp.unwrap, Comp.run_pure, Option.bind_some, hget, Comp.run_bind,
          Comp.run_modify, dropArc, Comp.run_get, hzero, if_true]
        rw [← synced_setQueue]
        exact sync_run hc
      · refine hrep.remove (c := c') ?_ hc' ?_ ?_ ?_
        · rw [synced_queue]
          exact hp
        · rw [hd']
          exact hclean
        · rw [synced_handles]
          exact hfree
        · rw [synced_queue]
          exact hperm
      · exact ⟨hkeep.arcs, hkeep.settled, hkeep.handles⟩
      · have hlen := hperm.length_eq
        rw [List.length_cons] at hlen
        simp only
        omega
      · intro x hx
        exact hperm.mem_iff.mpr (List.mem_cons_of_mem _ hx)
  · left
    have hsize := h.size
    refine ⟨s, ?_, h, Keeps.refl v s, fun _ _ _ _ => rfl, by omega, List.Subset.refl _,
      fun hc => absurd hc hfull⟩
    rw [if_neg hfull]
    rfl

end Evict

/-! ## Handles -/

section Handles

variable {v : δ → Nat → Block} {s : CacheState δ}

/-- The state with a new entry that has the content of the device. -/
def inserted (s : CacheState δ) (d : δ) (b : Nat) : CacheState δ :=
  { s with
    arena := s.arena ++ [⟨s.devices d b, b, d, false⟩]
    queue := s.queue ++ [(b, s.arena.length)] }

theorem inserted_old (d : δ) (b : Nat) {arc : Nat} {c : BlockCache δ} (hc : s.arena[arc]? = some c) :
    (s.inserted d b).arena[arc]? = some c := by
  rw [inserted, List.getElem?_append_left (List.getElem?_eq_some_iff.mp hc).1]
  exact hc

theorem inserted_new (s : CacheState δ) (d : δ) (b : Nat) :
    (s.inserted d b).arena[s.arena.length]? = some ⟨s.devices d b, b, d, false⟩ :=
  List.getElem?_concat_length

theorem Rep.inserted (h : Rep v s) (hroom : s.queue.length < blockCacheMaxNum) (d : δ) {b : Nat}
    (hb : ∀ p ∈ s.queue, p.1 ≠ b) : Rep v (s.inserted d b) := by
  have hdev : s.devices d b = v d b := h.uncached d b fun p hp _ _ he => absurd he (hb p hp)
  refine ⟨?_, ?_, ?_, ?_, ?_⟩
  · rw [CacheState.inserted, List.map_append, List.nodup_append]
    refine ⟨h.ids, by simp, ?_⟩
    intro x hx y hy
    obtain ⟨p, hp, rfl⟩ := List.mem_map.mp hx
    rw [List.map_singleton, List.mem_singleton] at hy
    rw [hy]
    exact hb p hp
  · rw [CacheState.inserted, List.length_append, List.length_singleton]
    exact hroom
  · intro p hp
    rw [CacheState.inserted, List.mem_append, List.mem_singleton] at hp
    rcases hp with hp | rfl
    · obtain ⟨c, hc, hrest⟩ := h.cached p hp
      exact ⟨c, inserted_old d b hc, hrest⟩
    · exact ⟨_, inserted_new s d b, rfl, hdev, fun _ => rfl⟩
  · intro d' b' hno
    apply h.uncached
    intro p hp c hc
    exact hno p (List.mem_append_left _ hp) c (inserted_old d b hc)
  · intro x hx
    rw [CacheState.inserted, List.map_append]
    exact List.mem_append_left _ (h.handles x hx)

theorem Rep.fewerHandles {handles : List ((δ × Nat) × Nat)} (h : Rep v s)
    (hsub : handles ⊆ s.handles) : Rep v { s with handles := handles } :=
  ⟨h.ids, h.size, h.cached, h.uncached, fun x hx => h.handles x (hsub hx)⟩

variable [DecidableEq δ]

/-- **`get_block_cache`** returns an `Arc` of the block, cached before or read from the device now;
or it panics, because every entry of a full queue is in use. -/
theorem getBlockCache_run (h : Rep v s) (b : Nat) (d : δ) :
    (∃ p ∈ s.queue, p.1 = b ∧ (getBlockCache b d).run s = some (p.2, s)) ∨
    ((∀ p ∈ s.queue, p.1 ≠ b) ∧ ∃ s' arc c, (getBlockCache b d).run s = some (arc, s') ∧ Rep v s' ∧
      Keeps v s s' ∧ HeldStill s s' ∧ (b, arc) ∈ s'.queue ∧ s'.arena[arc]? = some c ∧ c.blockDevice = d ∧
      (s.queue.length = blockCacheMaxNum → ∃ p ∈ s.queue, p.2 ∉ s.handles.map Prod.snd)) ∨
    ((∀ p ∈ s.queue, p.1 ≠ b) ∧ s.queue.length = blockCacheMaxNum ∧
      (∀ p ∈ s.queue, p.2 ∈ s.handles.map Prod.snd) ∧ (getBlockCache b d).run s = none) := by
  cases hf : s.queue.find? fun pair => pair.1 = b with
  | some p =>
    left
    refine ⟨p, List.mem_of_find?_eq_some hf, by simpa using List.find?_some hf, ?_⟩
    unfold getBlockCache
    simp only [Comp.run_bind, Comp.run_get, Option.bind_some, hf]
    rfl
  | none =>
    have hmiss : ∀ p ∈ s.queue, p.1 ≠ b := by
      rw [List.find?_eq_none] at hf
      intro p hp
      simpa using hf p hp
    have hrun : (getBlockCache b d).run s = (makeRoom.run s).bind fun r =>
        some (r.2.arena.length, r.2.inserted d b) := by
      unfold getBlockCache
      simp only [Comp.run_bind, Comp.run_get, Option.bind_some, hf, new, Comp.run_modify,
        Comp.run_pure, CacheState.inserted]
    right
    rcases makeRoom_run h with ⟨s₁, hroom, hrep, hkeep, hheld, hlt, hsub, hfree⟩ |
      ⟨hfull, huse, hroom⟩
    · left
      refine ⟨hmiss, s₁.inserted d b, s₁.arena.length, ⟨s₁.devices d b, b, d, false⟩, ?_, ?_, ?_,
        ?_, ?_, inserted_new s₁ d b, rfl, hfree⟩
      · rw [hrun, hroom, Option.bind_some]
      · exact hrep.inserted hlt d fun p hp => hmiss p (hsub hp)
      · apply hkeep.trans
        refine ⟨?_, fun _ _ hd => hd, rfl⟩
        intro arc c hc
        exact ⟨c, inserted_old d b hc, rfl, rfl⟩
      · exact hheld
      · exact List.mem_append_right _ List.mem_cons_self
    · right
      refine ⟨hmiss, hfull, huse, ?_⟩
      rw [hrun, hroom, Option.bind_none]

/-- A cached block is changed: the contents change at that block. -/
theorem Rep.assign {p : Nat × Nat} {c : BlockCache δ} (h : Rep v s) (hp : p ∈ s.queue)
    (hc : s.arena[p.2]? = some c) (b : Block) :
    Rep (writeBlock c.blockDevice p.1 b v)
      { s with arena := s.arena.set p.2 { c with cache := b, modified := true } } := by
  refine h.set hp hc rfl rfl ?_ (writeBlock_same _ _ _ _).symm fun hm => Bool.noConfusion hm
  intro d b' hne
  exact ⟨writeBlock_ne hne _ _, rfl⟩

/-- The drop of a handle changes nothing else: the queue keeps the block cache alive. -/
theorem dropArc_run {arc : Nat} (harc : arc ∈ s.queue.map Prod.snd) :
    (dropArc arc).run s = some ((), s) := by
  have hpos : s.strongCount arc ≠ 0 := by
    have hcount := List.count_pos_iff.mpr harc
    unfold strongCount
    omega
  unfold dropArc
  simp only [Comp.run_bind, Comp.run_get, Option.bind_some, if_neg hpos, Comp.run_pure]

/-- `sync` on some entries of the queue. -/
theorem syncEach_run (h : Rep v s) {arcs : List Nat} (harcs : arcs ⊆ s.queue.map Prod.snd) :
    ∃ s', (syncEach arcs).run s = some ((), s') ∧ Rep v s' ∧ Keeps v s s' ∧ s'.queue = s.queue ∧
      ∀ p ∈ s.queue, p.2 ∈ arcs → ∀ c, s.arena[p.2]? = some c →
        s'.devices c.blockDevice p.1 = v c.blockDevice p.1 := by
  induction arcs generalizing s with
  | nil =>
    refine ⟨s, rfl, h, Keeps.refl v s, rfl, ?_⟩
    intro p _ hp
    cases hp
  | cons arc arcs ih =>
    obtain ⟨p, hp, rfl⟩ := List.mem_map.mp (harcs List.mem_cons_self)
    obtain ⟨c, hc, _⟩ := h.cached p hp
    obtain ⟨hrep, hkeep, hclean⟩ := h.synced hp hc
    have hqueue := synced_queue s p.2 c
    obtain ⟨s', hrun, hrep', hkeep', hqueue', hsettled⟩ := ih hrep (by
      rw [hqueue]
      exact fun x hx => harcs (List.mem_cons_of_mem _ hx))
    refine ⟨s', ?_, hrep', hkeep.trans hkeep', hqueue'.trans hqueue, ?_⟩
    · rw [syncEach, Comp.run_bind, sync_run hc, Option.bind_some, hrun]
    · intro q hq hmem c₁ hc₁
      rw [List.mem_cons] at hmem
      rcases hmem with hmem | hmem
      · have he := h.entry_ext hq hp (Or.inr hmem)
        subst he
        rw [hc] at hc₁
        cases hc₁
        exact hkeep'.settled _ _ hclean
      · obtain ⟨c₂, hc₂, hd, _⟩ := hkeep.arcs q.2 c₁ hc₁
        rw [← hd]
        exact hsettled q (by rw [hqueue]; exact hq) hmem c₂ hc₂

/-- **`block_cache_sync_all`** brings every block to its device. -/
theorem blockCacheSyncAll_run (h : Rep v s) :
    ∃ s', blockCacheSyncAll.run s = some ((), s') ∧ Rep v s' ∧ Keeps v s s' ∧ s'.queue = s.queue ∧
      s'.devices = v := by
  obtain ⟨s', hrun, hrep, hkeep, hqueue, hsettled⟩ := syncEach_run h (List.Subset.refl _)
  refine ⟨s', ?_, hrep, hkeep, hqueue, ?_⟩
  · unfold blockCacheSyncAll
    simp only [Comp.run_bind, Comp.run_get, Option.bind_some]
    exact hrun
  · funext d b
    by_cases hin : ∃ p ∈ s.queue, ∃ c : BlockCache δ, s.arena[p.2]? = some c ∧ p.1 = b ∧
        c.blockDevice = d
    · obtain ⟨p, hp, c, hc, rfl, rfl⟩ := hin
      exact hsettled p hp (List.mem_map.mpr ⟨p, hp, rfl⟩) c hc
    · apply hkeep.settled
      apply h.uncached
      intro p hp c hc hb hd
      exact hin ⟨p, hp, c, hc, hb, hd⟩

end Handles

end CacheState

end RCore.EasyFs
