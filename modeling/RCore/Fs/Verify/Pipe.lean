import RCore.Fs.Pipe
import RCore.Lib.Ring

/-!
# A pipe is a channel

The ring buffer holds a list, first in first out, and the list is what has been written and not yet
read. A call moves bytes in batches that are as long as the ring allows; it suspends its process when
the ring is empty or full, and it notices that it is finished only by asking for one byte more.
-/

namespace RCore.Fs

open RCore Mm

/-! ## The ring buffer holds a list -/

namespace PipeRingBuffer

variable {r : PipeRingBuffer} {byte : UInt8}

/-- The status tells a full ring from an empty one. -/
def Ok (r : PipeRingBuffer) : Prop := r.head = r.tail ↔ r.status ≠ .normal

/-- The bytes in the ring. -/
def contents (r : PipeRingBuffer) : List UInt8 := Ring.window r.arr r.head r.availableRead

@[simp] theorem length_contents : r.contents.length = r.availableRead := Ring.length_window

theorem ok_new : new.Ok := iff_of_true rfl (by decide)

/-- How far the tail is behind the head. -/
theorem availableRead_cases (r : PipeRingBuffer) :
    (r.status = .empty ∧ r.availableRead = 0) ∨
    (r.status ≠ .empty ∧ r.head.val < r.tail.val ∧ r.availableRead + r.head.val = r.tail.val) ∨
    (r.status ≠ .empty ∧ r.tail.val ≤ r.head.val ∧ r.availableRead + r.head.val = r.tail.val + 32) := by
  have hh : r.head.val < 32 := r.head.isLt
  unfold availableRead
  split
  · next hempty => exact Or.inl ⟨hempty, rfl⟩
  · next hne =>
    right
    split
    · next hgt =>
      have hgt' : r.head.val < r.tail.val := hgt
      exact Or.inl ⟨hne, hgt', Nat.sub_add_cancel hgt'.le⟩
    · next hle =>
      have hle' : r.tail.val ≤ r.head.val := Fin.not_lt.mp hle
      refine Or.inr ⟨hne, hle', ?_⟩
      have hsize : ringBufferSize = 32 := rfl
      omega

theorem availableRead_le (r : PipeRingBuffer) : r.availableRead ≤ 32 := by
  have hh : r.head.val < 32 := r.head.isLt
  have ht : r.tail.val < 32 := r.tail.isLt
  rcases r.availableRead_cases with h | h | h
  · omega
  · omega
  · omega

theorem availableRead_of_full (h : r.Ok) (hfull : r.status = .full) : r.availableRead = 32 := by
  have heq : r.head = r.tail := h.mpr (by rw [hfull]; decide)
  have hval := congrArg Fin.val heq
  rcases r.availableRead_cases with hc | hc | hc
  · rw [hfull] at hc
    exact absurd hc.1 (by decide)
  · omega
  · omega

theorem available_add (h : r.Ok) : r.availableRead + r.availableWrite = 32 := by
  have hle := r.availableRead_le
  have hsize : ringBufferSize = 32 := rfl
  unfold availableWrite
  split
  · next hfull => rw [availableRead_of_full h hfull]
  · omega

/-- The place behind the contents is the tail. -/
theorem tail_eq (h : r.Ok) : r.tail = r.head + Fin.ofNat ringBufferSize r.availableRead := by
  have hh : r.head.val < 32 := r.head.isLt
  have ht : r.tail.val < 32 := r.tail.isLt
  apply Fin.ext
  rw [Ring.val_add_ofNat]
  show r.tail.val = (r.head.val + r.availableRead) % 32
  rcases r.availableRead_cases with ⟨hempty, hc⟩ | hc | hc
  · have heq : r.head = r.tail := h.mpr (by rw [hempty]; decide)
    have hval := congrArg Fin.val heq
    omega
  · omega
  · omega

theorem val_succ (i : Fin ringBufferSize) : (i + 1).val = (i.val + 1) % 32 := by
  rw [Fin.val_add, Fin.val_one]

/-- **`read_byte`** takes the first byte. -/
theorem readByte_spec (hpos : 0 < r.availableRead) :
    r.readByte.2.Ok ∧ r.contents = r.readByte.1 :: r.readByte.2.contents ∧
      r.readByte.2.availableRead + 1 = r.availableRead := by
  have hh : r.head.val < 32 := r.head.isLt
  have ht : r.tail.val < 32 := r.tail.isLt
  have hsucc := val_succ r.head
  have hhead : r.readByte.2.head = r.head + 1 := rfl
  have htail : r.readByte.2.tail = r.tail := rfl
  have hstatus : r.readByte.2.status = if r.head + 1 = r.tail then .empty else .normal := rfl
  have hok : r.readByte.2.Ok := by
    unfold Ok
    rw [hhead, htail, hstatus]
    by_cases hend : r.head + 1 = r.tail
    · simp [hend]
    · simp [hend]
  have hcount : r.readByte.2.availableRead + 1 = r.availableRead := by
    have hold := r.availableRead_cases
    have hnew := r.readByte.2.availableRead_cases
    rw [hhead, htail, hstatus] at hnew
    by_cases hend : r.head + 1 = r.tail
    · have hval := congrArg Fin.val hend
      simp only [hend, if_true, true_and, ne_eq, not_true_eq_false, false_and, or_false] at hnew
      omega
    · have hval : (r.head + 1).val ≠ r.tail.val := fun hc => hend (Fin.ext hc)
      simp only [hend, if_false, reduceCtorEq, false_and, false_or, ne_eq, not_false_eq_true, true_and] at hnew
      omega
  refine ⟨hok, ?_, hcount⟩
  rw [contents, ← hcount, Ring.window_succ]
  rfl

/-- **`write_byte`** adds a last byte. -/
theorem writeByte_spec (h : r.Ok) (hpos : 0 < r.availableWrite) (byte : UInt8) :
    (r.writeByte byte).Ok ∧ (r.writeByte byte).contents = r.contents ++ [byte] ∧
      (r.writeByte byte).availableRead = r.availableRead + 1 := by
  have hh : r.head.val < 32 := r.head.isLt
  have ht : r.tail.val < 32 := r.tail.isLt
  have hsum := available_add h
  have hsucc := val_succ r.tail
  have hhead : (r.writeByte byte).head = r.head := rfl
  have htail : (r.writeByte byte).tail = r.tail + 1 := rfl
  have hstatus : (r.writeByte byte).status = if r.tail + 1 = r.head then .full else .normal := rfl
  have hok : (r.writeByte byte).Ok := by
    unfold Ok
    rw [hhead, htail, hstatus]
    by_cases hend : r.tail + 1 = r.head
    · simp [hend]
    · simp [hend, Ne.symm hend]
  have hcount : (r.writeByte byte).availableRead = r.availableRead + 1 := by
    have hnew := (r.writeByte byte).availableRead_cases
    have hne : (r.writeByte byte).status ≠ .empty := by
      rw [hstatus]
      split
      · decide
      · decide
    simp only [hne, false_and, false_or, ne_eq, not_false_eq_true, true_and] at hnew
    rw [hhead, htail] at hnew
    rcases r.availableRead_cases with ⟨hempty, hc⟩ | hc | hc
    · have hval := congrArg Fin.val (h.mpr (by rw [hempty]; decide))
      omega
    · omega
    · omega
  refine ⟨hok, ?_, hcount⟩
  rw [contents, hcount]
  exact Ring.window_set (show r.availableRead < 32 by omega) (tail_eq h) byte

end PipeRingBuffer

/-! ## What has been written and not read is in the ring -/

/-- The invariant of a pipe. -/
structure PipeState.Sound (s : PipeState) : Prop where
  ring : s.ring.Ok
  log : s.written = s.handedOut ++ s.ring.contents
  used : s.misused = false

theorem sound_makePipe (mem : Mem) : (PipeState.makePipe mem).Sound :=
  ⟨PipeRingBuffer.ok_new, rfl, rfl⟩

/-! ## Batches -/

/-- What moves a byte: it takes one from the room there is, adds one to the log, and leaves the pipe in
order. -/
structure Moves (room : PipeState → Nat) (log : PipeState → List UInt8)
    (move : Nat → Comp PipeState UInt8) : Prop where
  move : ∀ s a, s.Sound → 0 < room s → (move a).wp (fun c s' => s'.Sound ∧ room s' + 1 = room s ∧
    log s' = log s ++ [c] ∧ s'.writeEnds = s.writeEnds) s

theorem moves_read : Moves (fun s => s.ring.availableRead) PipeState.handedOut Pipe.readMove := by
  refine ⟨fun s a h hpos => ?_⟩
  obtain ⟨hok, hcontents, hcount⟩ := PipeRingBuffer.readByte_spec hpos
  simp only [Pipe.readMove, PipeState.readByte, Comp.wp_bind, Comp.wp_get, Comp.wp_modify, Comp.wp_pure]
  refine ⟨⟨hok, ?_, ?_⟩, hcount, trivial, trivial⟩
  · show s.written = s.handedOut ++ [s.ring.readByte.1] ++ s.ring.readByte.2.contents
    rw [h.log, hcontents, List.append_assoc, List.singleton_append]
  · show (s.misused || decide (s.ring.availableRead = 0)) = false
    rw [h.used, decide_eq_false (Nat.ne_of_gt hpos), Bool.or_false]

theorem moves_write : Moves (fun s => s.ring.availableWrite) PipeState.written Pipe.writeMove := by
  refine ⟨fun s a h hpos => ?_⟩
  obtain ⟨hok, hcontents, hcount⟩ := PipeRingBuffer.writeByte_spec h.ring hpos (s.mem a)
  have hsum := PipeRingBuffer.available_add h.ring
  have hsum' := PipeRingBuffer.available_add hok
  simp only [Pipe.writeMove, PipeState.writeByte, Comp.wp_bind, Comp.wp_get, Comp.wp_modify, Comp.wp_pure]
  refine ⟨⟨hok, ?_, ?_⟩, by omega, trivial, trivial⟩
  · show s.written ++ [s.mem a] = s.handedOut ++ (s.ring.writeByte (s.mem a)).contents
    rw [h.log, hcontents, List.append_assoc]
  · show (s.misused || decide (s.ring.availableWrite = 0)) = false
    rw [h.used, decide_eq_false (Nat.ne_of_gt hpos), Bool.or_false]

/-- The addresses still to come. -/
abbrev Transfer.left (t : Transfer) : List Nat := t.bufIter.left

/-- The buffer of a call. -/
abbrev Transfer.buffer (t : Transfer) : UserBuffer := ⟨t.bufIter.buffers⟩

/-- A call has moved the bytes of the first part of its buffer, in order. -/
structure Transfer.Ok (t : Transfer) : Prop where
  moved : t.buffer.addresses = t.moved.map Prod.fst ++ t.left
  size : t.size = t.moved.length

theorem Transfer.Ok.start (buf : UserBuffer) : Transfer.Ok ⟨buf.intoIter, 0, []⟩ := ⟨rfl, rfl⟩

/-- A finished call has moved as many bytes as its buffer has. -/
theorem Transfer.Ok.size_eq {t : Transfer} (h : t.Ok) (hleft : t.left = []) :
    t.moved.map Prod.fst = t.buffer.addresses ∧ t.size = t.buffer.len := by
  have hm := h.moved
  rw [hleft, List.append_nil] at hm
  refine ⟨hm.symm, ?_⟩
  rw [← UserBuffer.length_addresses, hm, List.length_map, h.size]

/-- The call has gone on: what it moved is in the log. -/
structure Transfer.Continues (log : PipeState → List UInt8) (s : PipeState) (t : Transfer) (s' : PipeState)
    (t' : Transfer) : Prop where
  ok : t'.Ok
  buffer : t'.buffer = t.buffer
  moved : ∃ m, t'.moved = t.moved ++ m ∧ log s' = log s ++ m.map Prod.snd
  writeEnds : s'.writeEnds = s.writeEnds

theorem Transfer.Continues.refl {log : PipeState → List UInt8} {s : PipeState} {t : Transfer} (h : t.Ok) :
    t.Continues log s s t :=
  ⟨h, rfl, ⟨[], (List.append_nil _).symm, (List.append_nil _).symm⟩, rfl⟩

theorem Transfer.Continues.trans {log : PipeState → List UInt8} {s s₁ s₂ : PipeState} {t t₁ t₂ : Transfer}
    (h : t.Continues log s s₁ t₁) (h' : t₁.Continues log s₁ s₂ t₂) : t.Continues log s s₂ t₂ := by
  obtain ⟨m, hm, hlog⟩ := h.moved
  obtain ⟨m', hm', hlog'⟩ := h'.moved
  refine ⟨h'.ok, h'.buffer.trans h.buffer, ⟨m ++ m', ?_, ?_⟩, h'.writeEnds.trans h.writeEnds⟩
  · rw [hm', hm, List.append_assoc]
  · rw [hlog', hlog, List.map_append, List.append_assoc]

section Batch

variable {room : PipeState → Nat} {closed : PipeState → Bool} {log : PipeState → List UInt8}
  {move : Nat → Comp PipeState UInt8} {s : PipeState} {t : Transfer}

/-- A batch that fits ends the call if the buffer is shorter, and takes all its bytes otherwise. -/
theorem moveBatch_wlp (hmove : Moves room log move) (n : Nat) (hs : s.Sound) (ht : t.Ok)
    (hn : n ≤ room s) :
    (Pipe.moveBatch move n t).wlp (fun r s' => s'.Sound ∧ t.Continues log s s' r.2 ∧
      ((r.1 = true ∧ t.left.length < n ∧ r.2.left = []) ∨
        (r.1 = false ∧ r.2.left.length + n = t.left.length ∧ room s' + n = room s))) s := by
  induction n generalizing s t with
  | zero =>
    rw [Pipe.moveBatch, Comp.wlp_pure]
    exact ⟨hs, .refl ht, Or.inr ⟨rfl, rfl, rfl⟩⟩
  | succ n ih =>
    rw [Pipe.moveBatch, Comp.wlp_bind]
    refine (UserBufferIterator.next_wlp t.bufIter s).mono ?_
    rintro ⟨byteRef, bufIter⟩ s₁ ⟨rfl, hbuf, hhead, htail, hnone⟩
    cases byteRef with
    | none =>
      have hnil : t.left = [] := List.head?_eq_none_iff.mp hhead.symm
      have hit : bufIter = t.bufIter := hnone rfl
      subst hit
      simp only [Comp.wlp_pure]
      refine ⟨hs, .refl ht, Or.inl ⟨trivial, ?_, hnil⟩⟩
      rw [hnil, List.length_nil]
      exact Nat.succ_pos n
    | some a =>
      have hcons : t.left = a :: bufIter.left := by
        rw [htail]
        exact (List.cons_head?_tail hhead.symm).symm
      simp only [Comp.wlp_bind]
      refine ((hmove.move s₁ a hs (by omega)).wlp).mono ?_
      rintro c s₂ ⟨hs₂, hcount, hlog, hends⟩
      have ht₂ : Transfer.Ok ⟨bufIter, t.size + 1, t.moved ++ [(a, c)]⟩ := by
        refine ⟨?_, ?_⟩
        · show (UserBuffer.mk bufIter.buffers).addresses = _
          rw [hbuf, ht.moved, hcons]
          simp
        · rw [List.length_append, List.length_singleton, ← ht.size]
      have hone : t.Continues log s₁ s₂ ⟨bufIter, t.size + 1, t.moved ++ [(a, c)]⟩ :=
        ⟨ht₂, congrArg UserBuffer.mk hbuf, ⟨[(a, c)], rfl, hlog⟩, hends⟩
      refine (ih hs₂ ht₂ (by omega)).mono ?_
      rintro ⟨ended, t'⟩ s' ⟨hs', hcont, hcase⟩
      refine ⟨hs', hone.trans hcont, ?_⟩
      have hlen : t.left.length = bufIter.left.length + 1 := by rw [hcons, List.length_cons]
      rcases hcase with ⟨he, hlt, hnil⟩ | ⟨he, hleft, hroom⟩
      · have hlt' : bufIter.left.length < n := hlt
        exact Or.inl ⟨he, by omega, hnil⟩
      · have hleft' : t'.left.length + n = bufIter.left.length := hleft
        refine Or.inr ⟨he, ?_, by omega⟩
        show t'.left.length + (n + 1) = t.left.length
        omega

/-- **A call up to a suspension.** It returns with its buffer finished, if there is more room than that,
or because it is closed with no room left; otherwise it suspends with no room left, and with nothing
left to do exactly if the room there was is what was left. -/
theorem moveLoop_wlp (hmove : Moves room log move)
    (hclosed : ∀ s s', s'.writeEnds = s.writeEnds → closed s' = closed s)
    (fuel : Nat) (hs : s.Sound) (ht : t.Ok) :
    (Pipe.moveLoop room closed move fuel t).wlp (fun o s' => s'.Sound ∧
      match o with
      | .returned t' => t.Continues log s s' t' ∧
        ((t'.left = [] ∧ t.left.length < room s) ∨ (room s' = 0 ∧ closed s = true))
      | .suspended t' => t.Continues log s s' t' ∧ room s' = 0 ∧ closed s = false ∧
        (t'.left = [] ↔ room s = t.left.length)) s := by
  induction fuel generalizing s t with
  | zero =>
    rw [Pipe.moveLoop, Comp.wlp_panic]
    trivial
  | succ fuel ih =>
    rw [Pipe.moveLoop]
    simp only [Comp.wlp_bind, Comp.wlp_get]
    split
    · next hzero =>
      split
      · next hc =>
        rw [Comp.wlp_pure]
        exact ⟨hs, .refl ht, Or.inr ⟨hzero, hc⟩⟩
      · next hc =>
        rw [Comp.wlp_pure]
        refine ⟨hs, .refl ht, hzero, Bool.eq_false_iff.mpr hc, ?_⟩
        rw [hzero, ← List.length_eq_zero_iff]
        exact eq_comm
    · next hpos =>
      rw [Comp.wlp_bind]
      refine (moveBatch_wlp hmove (room s) hs ht (Nat.le_refl _)).mono ?_
      rintro ⟨ended, t₁⟩ s₁ ⟨hs₁, hcont₁, hcase⟩
      rcases hcase with ⟨rfl, hlt, hnil⟩ | ⟨rfl, hleft, hroom⟩
      · rw [if_pos rfl, Comp.wlp_pure]
        exact ⟨hs₁, hcont₁, Or.inl ⟨hnil, hlt⟩⟩
      · -- the batch has used up the room, so that the next round ends the call
        simp only [Bool.false_eq_true, if_false]
        have hzero : room s₁ = 0 := by omega
        have hcl : closed s₁ = closed s := hclosed s s₁ hcont₁.writeEnds
        refine (ih hs₁ hcont₁.ok).mono ?_
        rintro (t' | t') s' ⟨hs', hcont', hout⟩
        · refine ⟨hs', hcont₁.trans hcont', ?_⟩
          rw [hzero, hcl] at hout
          rcases hout with ⟨_, hbad⟩ | hend
          · exact absurd hbad (Nat.not_lt_zero _)
          · exact Or.inr hend
        · obtain ⟨hroom', hc', hiff⟩ := hout
          refine ⟨hs', hcont₁.trans hcont', hroom', hcl ▸ hc', ?_⟩
          rw [hiff]
          omega

/-- No index of the loop is out of bounds if no slice of the buffer is empty, and the rounds are
enough. -/
theorem moveBatch_ok (hmove : Moves room log move) (n : Nat) (hs : s.Sound) (hn : n ≤ room s)
    (hit : t.bufIter.Ok) : (Pipe.moveBatch move n t).wp (fun r _ => r.2.bufIter.Ok) s := by
  induction n generalizing s t with
  | zero =>
    rw [Pipe.moveBatch, Comp.wp_pure]
    exact hit
  | succ n ih =>
    rw [Pipe.moveBatch, Comp.wp_bind]
    obtain ⟨⟨byteRef, bufIter⟩, s₁, hrun, hit'⟩ := UserBufferIterator.next_ok hit s
    obtain ⟨rfl, _⟩ := UserBufferIterator.next_wlp t.bufIter s _ _ hrun
    refine ⟨_, _, hrun, ?_⟩
    cases byteRef with
    | none =>
      rw [Comp.wp_pure]
      exact hit'
    | some a =>
      simp only [Comp.wp_bind]
      refine (hmove.move s₁ a hs (by omega)).mono ?_
      rintro c s₂ ⟨hs₂, hcount, _, _⟩
      exact ih hs₂ (by omega) hit'

theorem moveLoop_ok (hmove : Moves room log move) (fuel : Nat) (hs : s.Sound) (ht : t.Ok)
    (hit : t.bufIter.Ok) (hfuel : t.left.length < fuel) :
    (Pipe.moveLoop room closed move fuel t).wp (fun _ _ => True) s := by
  induction fuel generalizing s t with
  | zero => exact absurd hfuel (Nat.not_lt_zero _)
  | succ fuel ih =>
    rw [Pipe.moveLoop]
    simp only [Comp.wp_bind, Comp.wp_get]
    split
    · split
      · rw [Comp.wp_pure]
        trivial
      · rw [Comp.wp_pure]
        trivial
    · next hpos =>
      obtain ⟨⟨ended, t₁⟩, s₁, hrun, hit₁⟩ := moveBatch_ok hmove (room s) hs (Nat.le_refl _) hit
      obtain ⟨hs₁, hcont, hcase⟩ := moveBatch_wlp hmove (room s) hs ht (Nat.le_refl _) _ _ hrun
      rw [Comp.wp_bind]
      refine ⟨_, _, hrun, ?_⟩
      rcases hcase with ⟨rfl, _, _⟩ | ⟨rfl, hleft, _⟩
      · rw [if_pos rfl, Comp.wp_pure]
        trivial
      · have hleft' : t₁.left.length + room s = t.left.length := hleft
        exact ih hs₁ hcont.ok hit₁ (by omega)

end Batch

/-! ## Readers and writers -/

namespace Call

/-- The transfer of a call. -/
def transfer : Call → Transfer
  | read t => t
  | write t => t

/-- How many bytes a call can move. -/
def room (s : PipeState) : Call → Nat
  | read _ => s.ring.availableRead
  | write _ => s.ring.availableWrite

/-- Whether a call ends for want of room. -/
def closed (s : PipeState) : Call → Bool
  | read _ => s.allWriteEndsClosed
  | write _ => false

/-- Where a call leaves its bytes. -/
def log (s : PipeState) : Call → List UInt8
  | read _ => s.handedOut
  | write _ => s.written

/-- How a call ends, up to a suspension. -/
structure Ends (c : Call) (s s' : PipeState) (o : Outcome) : Prop where
  sound : s'.Sound
  outcome : match o with
    | .returned t => c.transfer.Continues (fun s => c.log s) s s' t ∧
      ((t.left = [] ∧ c.transfer.left.length < c.room s) ∨ (c.room s' = 0 ∧ c.closed s = true))
    | .suspended t => c.transfer.Continues (fun s => c.log s) s s' t ∧ c.room s' = 0 ∧
      c.closed s = false ∧ (t.left = [] ↔ c.room s = c.transfer.left.length)

end Call

theorem resumeRead_wlp {s : PipeState} {t : Transfer} (hs : s.Sound) (ht : t.Ok) :
    (Pipe.resumeRead t).wlp (fun o s' => (Call.read t).Ends s s' o) s := by
  have hclosed : ∀ s s' : PipeState, s'.writeEnds = s.writeEnds →
      s'.allWriteEndsClosed = s.allWriteEndsClosed := by
    intro s s' h
    rw [PipeState.allWriteEndsClosed, PipeState.allWriteEndsClosed, h]
  exact (moveLoop_wlp moves_read hclosed _ hs ht).mono fun _ _ h => ⟨h.1, h.2⟩

theorem resumeWrite_wlp {s : PipeState} {t : Transfer} (hs : s.Sound) (ht : t.Ok) :
    (Pipe.resumeWrite t).wlp (fun o s' => (Call.write t).Ends s s' o) s :=
  (moveLoop_wlp moves_write (fun _ _ _ => rfl) _ hs ht).mono fun _ _ h => ⟨h.1, h.2⟩

namespace PipeSystem

variable {ok : PipeSystem → PipeOp → Prop} {s s' : PipeSystem} {op : PipeOp} {o : Option Outcome}

/-- The call that a step starts or goes on with. -/
def attended (s : PipeSystem) : PipeOp → Option Call
  | .read _ buf => some (.read ⟨buf.intoIter, 0, []⟩)
  | .write _ buf => some (.write ⟨buf.intoIter, 0, []⟩)
  | .resume process => s.calls process
  | _ => none

/-- The pipe is in order, and so are the calls that are suspended. -/
structure Ok (s : PipeSystem) : Prop where
  pipe : s.pipe.Sound
  calls : ∀ p c, s.calls p = some c → c.transfer.Ok

/-- What a step does to the call it attends to, and to the calls that are suspended. -/
structure Attends (s : PipeSystem) (op : PipeOp) (o : Option Outcome) (s' : PipeSystem) : Prop where
  call : ∀ o', o = some o' → ∃ c, s.attended op = some c ∧ c.Ends s.pipe s'.pipe o'
  rest : ∀ q c', s'.calls q = some c' →
    s.calls q = some c' ∨ ∃ t, o = some (.suspended t) ∧ c'.transfer = t

theorem attend_wlp (h : s.Ok) {x : Comp PipeState Outcome} (process : Nat) {call : Transfer → Call}
    (hcall : ∀ t, (call t).transfer = t) {c : Call} (hc : s.attended op = some c)
    (hx : x.wlp (fun o p => c.Ends s.pipe p o) s.pipe) :
    (attend process call x).wlp (fun o s' => s'.Ok ∧ s.Attends op o s') s := by
  rw [attend]
  simp only [Comp.wlp_bind, Comp.wlp_zoom, Comp.wlp_modify, Comp.wlp_pure]
  refine hx.mono fun o p hends => ?_
  have hrest : ∀ q c', Function.update s.calls process
      (match o with | .returned _ => none | .suspended t => some (call t)) q = some c' →
      s.calls q = some c' ∨ ∃ t, o = .suspended t ∧ c'.transfer = t := by
    intro q c' hc'
    by_cases hq : q = process
    · rw [hq, Function.update_self] at hc'
      cases o with
      | returned t => cases hc'
      | suspended t =>
        cases hc'
        exact Or.inr ⟨t, rfl, hcall t⟩
    · rw [Function.update_of_ne hq] at hc'
      exact Or.inl hc'
  refine ⟨⟨hends.sound, ?_⟩, ?_, ?_⟩
  · intro q c' hc'
    rcases hrest q c' hc' with hold | ⟨t, rfl, ht⟩
    · exact h.calls q c' hold
    · rw [ht]
      exact hends.outcome.1.ok
  · intro o' ho'
    cases ho'
    exact ⟨c, hc, hends⟩
  · intro q c' hc'
    rcases hrest q c' hc' with hold | ⟨t, rfl, ht⟩
    · exact Or.inl hold
    · exact Or.inr ⟨t, rfl, ht⟩

/-- A step that attends to no call. -/
theorem still (h : s.Ok) {p : PipeState} (hp : p.Sound) :
    Ok { s with pipe := p } ∧ s.Attends op none { s with pipe := p } :=
  ⟨⟨hp, h.calls⟩, ⟨fun _ (ho : none = some _) => (by cases ho), fun _ _ hc => Or.inl hc⟩⟩

/-- **One step.** -/
theorem step_wlp (h : s.Ok) (op : PipeOp) :
    (step op).wlp (fun o s' => s'.Ok ∧ s.Attends op o s') s := by
  cases op with
  | read process buf =>
    simp only [step, Comp.wlp_bind, Comp.wlp_get, Comp.wlp_assert]
    intro _
    refine attend_wlp h process (fun _ => rfl) rfl ?_
    simp only [Pipe.read, Comp.wlp_bind, Comp.wlp_assert]
    intro _
    exact resumeRead_wlp h.pipe (.start buf)
  | write process buf =>
    simp only [step, Comp.wlp_bind, Comp.wlp_get, Comp.wlp_assert]
    intro _
    refine attend_wlp h process (fun _ => rfl) rfl ?_
    simp only [Pipe.write, Comp.wlp_bind, Comp.wlp_assert]
    intro _
    exact resumeWrite_wlp h.pipe (.start buf)
  | resume process =>
    simp only [step, Comp.wlp_bind, Comp.wlp_get, Comp.wlp_unwrap]
    intro c hc
    have ht := h.calls process c hc
    cases c with
    | read t => exact attend_wlp h process (fun _ => rfl) hc (resumeRead_wlp h.pipe ht)
    | write t => exact attend_wlp h process (fun _ => rfl) hc (resumeWrite_wlp h.pipe ht)
  | setWriteEnds n =>
    simp only [step, Comp.wlp_bind, Comp.wlp_modify, Comp.wlp_pure]
    exact still h ⟨h.pipe.ring, h.pipe.log, h.pipe.used⟩
  | store a byte =>
    simp only [step, Comp.wlp_bind, Comp.wlp_modify, Comp.wlp_pure]
    exact still h ⟨h.pipe.ring, h.pipe.log, h.pipe.used⟩

theorem Reached.inv (hs : Reached ok s) : s.Ok := by
  induction hs with
  | start mem => exact ⟨sound_makePipe mem, fun _ _ hc => by cases hc⟩
  | step op _ _ h ih => exact (step_wlp ih op _ _ h).1

/-- **A pipe is a channel.** -/
theorem pipe_fifo (hs : Reached (fun _ _ => True) s) :
    (s.pipe.written = s.pipe.handedOut ++ s.pipe.ring.contents ∧
      s.pipe.ring.contents.length = s.pipe.ring.availableRead ∧
      s.pipe.ring.availableRead + s.pipe.ring.availableWrite = 32 ∧
      (s.pipe.ring.head = s.pipe.ring.tail ↔ s.pipe.ring.status ≠ .normal) ∧
      s.pipe.misused = false) ∧
    ∀ op o s', (step op).run s = some (some o, s') → ∃ c, s.attended op = some c ∧
      match o with
      | .suspended t => c.transfer.Continues (fun s => c.log s) s.pipe s'.pipe t
      | .returned t => c.transfer.Continues (fun s => c.log s) s.pipe s'.pipe t ∧
        match c with
        | .write _ => t.moved.map Prod.fst = t.buffer.addresses ∧ t.size = t.buffer.len
        | .read _ => t.size < t.buffer.len →
          s'.pipe.ring.availableRead = 0 ∧ s'.pipe.allWriteEndsClosed = true := by
  have h := hs.inv
  refine ⟨⟨h.pipe.log, PipeRingBuffer.length_contents, PipeRingBuffer.available_add h.pipe.ring, h.pipe.ring,
    h.pipe.used⟩, ?_⟩
  intro op o s' hrun
  obtain ⟨c, hc, hends⟩ := (step_wlp h op _ _ hrun).2.call o rfl
  refine ⟨c, hc, ?_⟩
  have hout := hends.outcome
  cases o with
  | suspended t => exact hout.1
  | returned t =>
    obtain ⟨hcont, hend⟩ := hout
    refine ⟨hcont, ?_⟩
    cases c with
    | write t₀ =>
      rcases hend with ⟨hnil, _⟩ | ⟨_, hclosed⟩
      · exact hcont.ok.size_eq hnil
      · cases hclosed
    | read t₀ =>
      intro hlt
      rcases hend with ⟨hnil, _⟩ | ⟨hroom, hclosed⟩
      · exact absurd (hcont.ok.size_eq hnil).2 (Nat.ne_of_lt hlt)
      · have hends : s'.pipe.writeEnds = s.pipe.writeEnds := hcont.writeEnds
        refine ⟨hroom, ?_⟩
        rw [PipeState.allWriteEndsClosed, hends]
        exact hclosed

/-- A pipe to which nobody has written. -/
theorem pipe_fifo_start :
    (PipeState.makePipe fun _ => 0).written = (PipeState.makePipe fun _ => 0).handedOut ++
      (PipeState.makePipe fun _ => 0).ring.contents :=
  (pipe_fifo (.start fun _ => 0)).1.1

/-! ## Waiting with nothing to do -/

/-- The call that a step attends to would have to wait, after it has moved as many bytes as it can, and
these are all it has left. -/
def LinesUp (s : PipeSystem) (op : PipeOp) : Prop :=
  ∃ c, s.attended op = some c ∧ c.room s.pipe = c.transfer.left.length ∧ c.closed s.pipe = false

/-- **Whether a finished transfer waits.** -/
theorem waits_unfinished_iff (s : PipeSystem) :
    (Reached (fun s op => ¬s.LinesUp op) s → ∀ p c, s.calls p = some c → c.transfer.left ≠ []) ∧
    (Reached (fun _ _ => True) s → ∀ op o s', (step op).run s = some (some o, s') →
      ((∀ t, o = .suspended t → t.left ≠ []) ↔ ¬s.LinesUp op)) := by
  -- a step that waits with nothing to do is one that lines up
  have hstep : ∀ {s op o s'}, s.Ok → (step op).run s = some (some o, s') →
      ((∀ t, o = .suspended t → t.left ≠ []) ↔ ¬s.LinesUp op) := by
    intro s op o s' h hrun
    obtain ⟨c, hc, hends⟩ := (step_wlp h op _ _ hrun).2.call o rfl
    have hout := hends.outcome
    cases o with
    | returned t =>
      refine iff_of_true (fun t ht => by cases ht) ?_
      rintro ⟨c', hc', hroom, hopen⟩
      cases hc.symm.trans hc'
      rcases hout.2 with ⟨_, hlt⟩ | ⟨_, hclosed⟩
      · exact absurd hroom (Nat.ne_of_gt hlt)
      · exact absurd hclosed (by rw [hopen]; exact Bool.false_ne_true)
    | suspended t =>
      obtain ⟨_, _, hopen, hiff⟩ := hout
      constructor
      · rintro hleft ⟨c', hc', hroom, _⟩
        cases hc.symm.trans hc'
        exact hleft t rfl (hiff.mpr hroom)
      · intro hno t' ht' hnil
        cases ht'
        exact hno ⟨c, hc, hiff.mp hnil, hopen⟩
  refine ⟨?_, fun hs op o s' hrun => hstep hs.inv hrun⟩
  intro hs
  induction hs with
  | start mem => exact fun _ _ hc => by cases hc
  | step op hs hok h ih =>
    intro p c hc
    rcases (step_wlp hs.inv op _ _ h).2.rest p c hc with hold | ⟨t, rfl, ht⟩
    · exact ih p c hold
    · rw [ht]
      exact (hstep hs.inv h).mpr hok t rfl

/-- A read from an empty pipe waits with its buffer still to fill. -/
theorem waits_unfinished_read : ∃ s',
    (step (.read 0 ⟨[⟨0, 1⟩]⟩)).run ⟨.makePipe fun _ => 0, fun _ => none⟩ =
      some (some (.suspended ⟨UserBuffer.intoIter ⟨[⟨0, 1⟩]⟩, 0, []⟩), s') ∧
    (∀ p c, s'.calls p = some c → c.transfer.left ≠ []) ∧
    ¬LinesUp ⟨.makePipe fun _ => 0, fun _ => none⟩ (.read 0 ⟨[⟨0, 1⟩]⟩) := by
  have hno : ¬LinesUp ⟨.makePipe fun _ => 0, fun _ => none⟩ (.read 0 ⟨[⟨0, 1⟩]⟩) := by
    rintro ⟨c, hc, hroom, _⟩
    cases hc
    exact absurd hroom (by decide)
  refine ⟨_, rfl, (waits_unfinished_iff _).1 (.step _ (.start _) hno rfl), ?_⟩
  refine ((waits_unfinished_iff _).2 (.start _) _ _ _ rfl).mp ?_
  rintro t ht
  cases ht
  decide

/-- A write of as many bytes as the ring has room for puts them all there, and waits. -/
theorem write_of_room_waits : ∃ t s',
    (step (.write 0 ⟨[⟨0, 32⟩]⟩)).run ⟨.makePipe fun _ => 0, fun _ => none⟩ =
      some (some (.suspended t), s') ∧ t.left = [] := by
  have hsound := sound_makePipe fun _ => 0
  have hit : (UserBuffer.intoIter ⟨[⟨0, 32⟩]⟩).Ok := UserBufferIterator.ok_intoIter (by decide)
  obtain ⟨o, p, hloop, -⟩ := @moveLoop_ok _ (fun _ => false) _ _ _ _ moves_write _ hsound (.start ⟨[⟨0, 32⟩]⟩) hit
    (Nat.lt_succ_self _)
  have hends := resumeWrite_wlp hsound (.start ⟨[⟨0, 32⟩]⟩) o p hloop
  have hrun : (step (.write 0 ⟨[⟨0, 32⟩]⟩)).wp (fun r _ => r = some o) ⟨.makePipe fun _ => 0, fun _ => none⟩ := by
    simp only [step, attend, Pipe.write, Comp.wp_bind, Comp.wp_get, Comp.wp_assert, Comp.wp_zoom, Comp.wp_modify,
      Comp.wp_pure]
    exact ⟨rfl, rfl, o, p, hloop, rfl⟩
  obtain ⟨_, s', hrun, rfl⟩ := hrun
  have hout := hends.outcome
  cases o with
  | returned t =>
    rcases hout.2 with ⟨_, hlt⟩ | ⟨_, hclosed⟩
    · exact absurd hlt (by decide)
    · cases hclosed
  | suspended t => exact ⟨t, s', hrun, hout.2.2.2.mpr (by decide)⟩

end PipeSystem

end RCore.Fs
