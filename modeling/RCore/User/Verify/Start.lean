import RCore.Task.Verify.Exec
import RCore.Task.Verify.Isolation
import RCore.User.Start

/-!
# The arguments arrive

What `exec` stores and what `_start` reads: the program gets the arguments it was started with.
-/

namespace RCore.User

open RCore Mm RCore.Task

variable {read : Nat → Option UInt8} {M : Mem} {lo hi a n fuel : Nat} {bs : List UInt8}

/-! ## Reading -/

/-- Between `lo` and `hi` the program reads what `M` has. -/
def Reads (read : Nat → Option UInt8) (M : Mem) (lo hi : Nat) : Prop :=
  hi < 2 ^ 64 ∧ ∀ a, lo ≤ a → a < hi → read a = some (M a)

theorem Reads.bytes (h : Reads read M lo hi) (hle : lo ≤ a) (hlt : a + n ≤ hi) :
    readBytes read a n = some (M.bytes a n) := by
  apply mapM_some
  intro i hi
  rw [List.mem_range] at hi
  have hbound := h.1
  have haddr : usizeAdd a i = a + i := Nat.mod_eq_of_lt (by omega)
  rw [haddr]
  exact h.2 _ (by omega) (by omega)

theorem Reads.usize (h : Reads read M lo hi) (hle : lo ≤ a) (hlt : a + 8 ≤ hi) :
    readUsize read a = some (M.word 8 a) := by
  rw [readUsize, h.bytes hle hlt]
  rfl

/-- The bytes of a string with its NUL. -/
theorem getElem_of_bytes (hbytes : M.bytes a (bs.length + 1) = bs ++ [0]) :
    (∀ k (hk : k < bs.length), M (a + k) = bs[k]) ∧ M (a + bs.length) = 0 := by
  have hget : ∀ k, k < bs.length + 1 → (M.bytes a (bs.length + 1))[k]? = some (M (a + k)) := by
    intro k hk
    rw [Mem.bytes, List.getElem?_map, List.getElem?_range hk]
    rfl
  rw [hbytes] at hget
  constructor
  · intro k hk
    have h := hget k (Nat.lt_succ_of_lt hk)
    rw [List.getElem?_append_left hk, List.getElem?_eq_getElem hk] at h
    exact (Option.some.inj h).symm
  · have h := hget bs.length (Nat.lt_succ_self _)
    rw [List.getElem?_append_right (Nat.le_refl _), Nat.sub_self] at h
    exact (Option.some.inj h).symm

/-- The search from the byte `i` on finds the NUL. -/
theorem Reads.findNul (h : Reads read M lo hi) (hle : lo ≤ a) (hlt : a + (bs.length + 1) ≤ hi)
    (hbytes : M.bytes a (bs.length + 1) = bs ++ [0]) (hnul : 0 ∉ bs) {i : Nat} (hi : i ≤ bs.length)
    (hfuel : bs.length < i + fuel) : findNul read a fuel i = some bs.length := by
  obtain ⟨hchars, hzero⟩ := getElem_of_bytes hbytes
  have hbound := h.1
  induction fuel generalizing i with
  | zero => omega
  | succ fuel ih =>
    have haddr : usizeAdd a i = a + i := Nat.mod_eq_of_lt (by omega)
    rw [User.findNul, haddr, h.2 _ (by omega) (by omega)]
    rcases Nat.lt_or_eq_of_le hi with hlt' | rfl
    · have hne : M (a + i) ≠ 0 := by
        rw [hchars i hlt']
        exact fun hc => hnul (hc ▸ List.getElem_mem hlt')
      show (if M (a + i) = 0 then some i else User.findNul read a fuel (i + 1)) = _
      rw [if_neg hne]
      exact ih hlt' (by omega)
    · show (if M (a + bs.length) = 0 then some bs.length else _) = _
      rw [if_pos hzero]

theorem fromUTF8_stringBytes (arg : String) : String.fromUTF8? ⟨(stringBytes arg).toArray⟩ = some arg := by
  have hbytes : (⟨(stringBytes arg).toArray⟩ : ByteArray) = arg.toByteArray := by
    rw [stringBytes, Array.toArray_toList]
  rw [hbytes, String.fromUTF8?, dif_pos arg.isValidUTF8]
  rfl

/-- A round of `_start` gets its argument. -/
theorem Reads.arg (h : Reads read M lo hi) {argv i : Nat} {arg : String} (hargv : lo ≤ argv)
    (hslot : argv + 8 * i + 8 ≤ hi) (hword : M.word 8 (argv + 8 * i) = a) (hle : lo ≤ a)
    (hlt : a + ((stringBytes arg).length + 1) ≤ hi)
    (hbytes : M.bytes a ((stringBytes arg).length + 1) = stringBytes arg ++ [0]) (hnul : 0 ∉ stringBytes arg)
    (hfuel : (stringBytes arg).length < fuel) : startArg read fuel argv i = some arg := by
  have hbound := h.1
  have haddr : usizeAdd argv (usizeMul i 8) = argv + 8 * i := by
    unfold usizeAdd usizeMul
    omega
  have hfind := h.findNul hle hlt hbytes hnul (Nat.zero_le _) (by rw [Nat.zero_add]; exact hfuel)
  have hchars : M.bytes a (stringBytes arg).length = stringBytes arg := by
    apply List.ext_getElem
    · rw [Mem.bytes_length]
    · intro j hj hj'
      simp only [Mem.bytes, List.getElem_map, List.getElem_range]
      exact (getElem_of_bytes hbytes).1 j hj'
  rw [startArg, haddr, h.usize (by omega) hslot, hword]
  simp only [Option.bind_eq_bind, Option.bind_some]
  rw [hfind, Option.bind_some, h.bytes hle (by omega), hchars, Option.bind_some]
  exact fromUTF8_stringBytes arg

/-! ## From `exec` to `_start` -/

/-- Two regions of a memory, each an address and a length, do not overlap. -/
def Apart (r s : Nat × Nat) : Prop := r.1 + r.2 ≤ s.1 ∨ s.1 + s.2 ≤ r.1

/-- The array of pointers and the strings. -/
def argRegions (argv : Nat) (ptrs : List Nat) (args : List String) : List (Nat × Nat) :=
  (argv, 8 * (args.length + 1)) :: (ptrs.zip (args.map stringBytes)).map fun q => (q.1, q.2.length + 1)

/-- What the program of `u` reads at a virtual address. -/
def programByte (m : Mem) (u : TaskControlBlock) : Nat → Option UInt8 :=
  userByte m (PageTable.fromToken u.memorySet.token)

/-- The program of `u`, whose stack is below `top`, starts with the arguments `args`; `cx` is its trap
context. -/
structure StartsWith (m : Mem) (u : TaskControlBlock) (top : Nat) (args : List String) (cx : TrapContext) :
    Prop where
  context : ∃ e, u.memorySet.translate m trapContextVpn = some e ∧ cx = readTrapContext m (e.ppn * 4096)
  stack : UserStack m u.memorySet top
  argc : cx.x 10 = args.length
  argv : ∃ ptrs : List Nat, ptrs.length = args.length ∧
    (∀ i p, ptrs[i]? = some p → readUsize (programByte m u) (cx.x 11 + 8 * i) = some p) ∧
    List.Forall₂ (fun p arg => UserString m (PageTable.fromToken u.memorySet.token) p (stringBytes arg)) ptrs args ∧
    (argRegions (cx.x 11) ptrs args).Pairwise Apart ∧
    ∀ r ∈ argRegions (cx.x 11) ptrs args, top - 8192 ≤ r.1 ∧ r.1 + r.2 ≤ top ∧ cx.x 2 ≤ r.1
  last : readUsize (programByte m u) (cx.x 11 + 8 * args.length) = some 0
  sp : cx.x 2 % 8 = 0 ∧ top - 8192 ≤ cx.x 2
  start : ∀ fuel, 8192 ≤ fuel → startArgs (programByte m u) fuel (cx.x 10) (cx.x 11) = some args

section Arrive

variable {B : BinaryHeap} {L : Layout} {rest : List Nat} {m₀ : Mem} {top : Nat} {k : Kernel B}
  {u : TaskControlBlock} {args : List String}

/-- The round `i` of a loop over a range, for each element of a list. -/
theorem mapM_range_eq {α : Type} {f : Nat → Option α} {l : List α} (h : ∀ i x, l[i]? = some x → f i = some x) :
    (List.range l.length).mapM f = some l := by
  cases l with
  | nil => rfl
  | cons y l =>
    have hmap : (List.range (y :: l).length).map (fun i => (y :: l).getD i y) = y :: l := by
      apply List.ext_getElem?
      intro i
      by_cases hi : i < (y :: l).length
      · rw [List.getElem?_map, List.getElem?_range hi, Option.map_some, List.getD_eq_getElem?_getD,
          List.getElem?_eq_getElem hi, Option.getD_some]
      · rw [List.getElem?_eq_none (by rw [List.length_map, List.length_range]; omega),
          List.getElem?_eq_none (by omega)]
    refine (mapM_some (fun i hi => ?_)).trans (congrArg some hmap)
    rw [List.mem_range] at hi
    rw [h i _ (List.getElem?_eq_getElem hi), List.getD_eq_getElem?_getD, List.getElem?_eq_getElem hi, Option.getD_some]

theorem startsWith_of_entered (h : Kernel.Entered L rest m₀ top (args.map stringBytes) k u)
    (hnul : ∀ arg ∈ args, 0 ∉ stringBytes arg)
    (hsize : 8 * (args.length + 1) + (args.map fun arg => (stringBytes arg).length + 1).sum ≤ 8192) :
    StartsWith k.phys.mem u top args (readTrapContext k.phys.mem (u.trapCxPpn * 4096)) := by
  obtain ⟨M, hon, hlaid, hlast⟩ := h.laid
  have hargc := h.argc
  have hargv := h.argv
  have hsp := h.sp
  have hsum : Mem.stringsSize (args.map stringBytes) = (args.map fun arg => (stringBytes arg).length + 1).sum := by
    rw [Mem.stringsSize, List.map_map]
    rfl
  rw [List.length_map] at hlaid hargc hargv hsp
  rw [← hsum] at hsize
  obtain ⟨e, he, hppn, -⟩ := h.page
  have hroom := hon.stack.room
  have hlow := hon.stack.lt
  have haligned := hon.stack.aligned
  have hreads : Reads (programByte k.phys.mem u) M (top - 8192) top := ⟨by omega, hon.holds⟩
  have hbase : Kernel.argvBase top args.length + 8 * (args.length + 1) = top := by
    unfold Kernel.argvBase
    omega
  generalize Kernel.argvBase top args.length = base at *
  generalize hptrs : Mem.stringsBelow base (args.map stringBytes) = ptrs
  have hlen : ptrs.length = args.length := by
    rw [← hptrs, Mem.length_stringsBelow, List.length_map]
  have hat : ∀ (i p : Nat) (bs : List UInt8), ptrs[i]? = some p → (args.map stringBytes)[i]? = some bs →
      (M.word 8 (base + 8 * i) = p ∧ M.bytes p (bs.length + 1) = bs ++ [0]) ∧
        base - Mem.stringsSize (args.map stringBytes) ≤ p ∧ p + (bs.length + 1) ≤ base := by
    intro i p bs hp hs
    rw [← hptrs] at hp
    exact ⟨hlaid.get hp hs, Mem.stringsBelow_bounds (by omega) hp hs⟩
  have hstring : ∀ (i : Nat) (arg : String), args[i]? = some arg → ∃ p, ptrs[i]? = some p ∧
      (args.map stringBytes)[i]? = some (stringBytes arg) := by
    intro i arg ha
    obtain ⟨hi, -⟩ := List.getElem?_eq_some_iff.mp ha
    refine ⟨_, List.getElem?_eq_getElem (by omega), ?_⟩
    rw [List.getElem?_map, ha, Option.map_some]
  refine ⟨⟨e, he, by rw [hppn]⟩, ?_, hargc, ⟨ptrs, hlen, ?_, ?_, ?_, ?_⟩, ?_, ?_, ?_⟩
  · exact hon.userStack
  · intro i p hp
    rw [hargv]
    obtain ⟨hi, -⟩ := List.getElem?_eq_some_iff.mp hp
    have hs : (args.map stringBytes)[i]? = some (stringBytes args[i]) := by
      rw [List.getElem?_map, List.getElem?_eq_getElem (by omega), Option.map_some]
    rw [hreads.usize (by omega) (by omega), (hat i p _ hp hs).1.1]
  · rw [List.forall₂_iff_get]
    refine ⟨hlen, fun i hi hi' => ?_⟩
    have ha : args[i]? = some args[i] := List.getElem?_eq_getElem hi'
    obtain ⟨p, hp, hs⟩ := hstring i _ ha
    obtain ⟨⟨-, hbytes⟩, hlow', hhigh⟩ := hat i p _ hp hs
    obtain ⟨hchars, hzero⟩ := getElem_of_bytes hbytes
    have huser : UserString k.phys.mem (PageTable.fromToken u.memorySet.token) p (stringBytes args[i]) := by
      refine userString_of_bytes (fun j hj => ⟨?_, ?_⟩) ?_ (by omega)
      · exact fun hc => hnul _ (List.getElem_mem hi') (hc ▸ List.getElem_mem hj)
      · rw [← hchars j hj]
        exact hreads.2 _ (by omega) (by omega)
      · rw [← hzero]
        exact hreads.2 _ (by omega) (by omega)
    have hget : ptrs.get ⟨i, hi⟩ = p := by
      rw [List.get_eq_getElem]
      exact Option.some.inj ((List.getElem?_eq_getElem hi).symm.trans hp)
    rw [hget]
    exact huser
  · rw [hargv]
    refine List.Pairwise.cons ?_ ?_
    · intro r hr
      obtain ⟨q, hq, rfl⟩ := List.mem_map.mp hr
      obtain ⟨i, hi⟩ := List.mem_iff_getElem?.mp hq
      obtain ⟨hp, hs⟩ := List.getElem?_zip_eq_some.mp hi
      exact Or.inr (hat i _ _ hp hs).2.2
    · rw [List.pairwise_map, ← hptrs]
      refine (Mem.pairwise_stringsBelow (by omega)).imp fun {q r} hqr => ?_
      exact Or.inr hqr
  · rw [hargv, hsp]
    intro r hr
    rcases List.mem_cons.mp hr with rfl | hr
    · simp only
      omega
    · obtain ⟨q, hq, rfl⟩ := List.mem_map.mp hr
      obtain ⟨i, hi⟩ := List.mem_iff_getElem?.mp hq
      obtain ⟨hp, hs⟩ := List.getElem?_zip_eq_some.mp hi
      obtain ⟨-, hle, hlt⟩ := hat i _ _ hp hs
      simp only
      omega
  · rw [hargv, hreads.usize (by omega) (by omega)]
    have hend : base + 8 * args.length = top - 8 := by omega
    rw [hend, hlast]
  · rw [hsp]
    omega
  · intro fuel hfuel
    rw [hargc, hargv, startArgs]
    refine mapM_range_eq fun i arg ha => ?_
    obtain ⟨p, hp, hs⟩ := hstring i arg ha
    obtain ⟨⟨hword, hbytes⟩, hle, hlt⟩ := hat i p _ hp hs
    obtain ⟨hi, rfl⟩ := List.getElem?_eq_some_iff.mp ha
    exact hreads.arg (by omega) (by omega) hword (by omega) (by omega) hbytes (hnul _ (List.getElem_mem hi)) (by omega)

variable {I : Image} {a : Nat} {t : TaskControlBlock} {elf : ElfFile} {ms : MemorySet} {entry : Nat} {p : Phys}

/-- The task at `a` runs, in the address space `ms`, and its program starts with `args`. -/
def Starting (a : Nat) (ms : MemorySet) (top : Nat) (args : List String) (k : Kernel B) : Prop :=
  k.current = some a ∧ ∃ u cx, k.tasks a = some u ∧ u.memorySet = ms ∧ StartsWith k.phys.mem u top args cx

theorem exec_starts (hc : k.current = some a) (ht : k.tasks a = some t)
    (hh : Held I.firstFrame k.phys.frames (t.memorySet.owned ++ rest))
    (hload : (MemorySet.fromElf I.toLayout elf).run k.phys = some ((ms, top, entry), p))
    (hnul : ∀ arg ∈ args, 0 ∉ stringBytes arg)
    (hsize : 8 * (args.length + 1) + (args.map fun arg => (stringBytes arg).length + 1).sum ≤ 8192) (sstatus : Nat) :
    (Kernel.exec I elf (args.map stringBytes) sstatus).wp (fun _ k' => Starting a ms top args k' ∧
      (Kernel.storeResult args.length).wp (fun _ k'' => Starting a ms top args k'') k') k := by
  have hsize' : 8 * ((args.map stringBytes).length + 1) + Mem.stringsSize (args.map stringBytes) ≤ 8192 := by
    rw [List.length_map, Mem.stringsSize, List.map_map]
    exact hsize
  refine (Kernel.exec_wp hc ht hh hload _ hsize' sstatus).mono ?_
  rintro _ k' ⟨hc', u, hu, hms, hentered⟩
  refine ⟨⟨hc', u, _, hu, hms, startsWith_of_entered hentered hnul hsize⟩, ?_⟩
  have hstore := Kernel.storeResult_wp hentered hc' hu
  rw [List.length_map] at hstore
  refine hstore.mono ?_
  rintro _ k'' ⟨hc'', hu'', hentered''⟩
  exact ⟨hc'', u, _, hu'', hms, startsWith_of_entered hentered'' hnul hsize⟩

/-- `sys_exec` of a program that is there, with strings that it can read. -/
theorem sysExec_starts (hc : k.current = some a) (ht : k.tasks a = some t)
    (hh : Held I.firstFrame k.phys.frames (t.memorySet.owned ++ rest))
    (hload : (MemorySet.fromElf I.toLayout elf).run k.phys = some ((ms, top, entry), p))
    (hnul : ∀ arg ∈ args, 0 ∉ stringBytes arg)
    (hsize : 8 * (args.length + 1) + (args.map fun arg => (stringBytes arg).length + 1).sum ≤ 8192) (sstatus : Nat)
    {openFile : String → Option ElfFile} {name : String} {path argv : Nat} (hopen : openFile name = some elf)
    (hpath : (translatedStr fuel t.memorySet.token path).run k.phys = some (some name, k.phys))
    (hargs : (Kernel.argsLoop fuel t.memorySet.token fuel argv []).run k.phys = some (some args, k.phys)) :
    (Kernel.sysExec I openFile fuel path argv sstatus).wp (fun r k' => r = some (args.length : Int) ∧
      (Kernel.storeResult args.length).wp (fun _ k'' => Starting a ms top args k'') k') k := by
  rw [Kernel.sysExec]
  simp only [Comp.wp_bind, Kernel.wp_currentTask, Kernel.wp_task, Kernel.wp_onPhys]
  refine ⟨a, hc, t, ht, ?_⟩
  rw [Comp.wp_of_run hpath]
  simp only [Comp.wp_bind, Kernel.wp_onPhys]
  rw [Comp.wp_of_run hargs, hopen]
  simp only [Kernel.execFile, Comp.wp_bind, Comp.wp_pure]
  exact (exec_starts hc ht hh hload hnul hsize sstatus).mono fun _ _ h => ⟨trivial, h.2⟩

end Arrive

end RCore.User
