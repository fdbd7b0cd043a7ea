import RCore.Mm.PageTable
import RCore.Mm.UserBuffer

/-!
# Access to user memory

The functions with which a system call reaches the memory of its caller (`os/src/mm/page_table.rs`),
and two system calls that store a structure there (`os/src/syscall/process.rs`, `os/src/syscall/fs.rs`).

The loops need not end, so they are given a number of rounds: what they return is `none` if they are not
over by then.
-/

namespace RCore.Mm

/-! ## Buffers -/

/-- A round of the loop of `translated_byte_buffers`: the slice it pushes, and the next `start`. -/
def translatedRound (pageTable : PageTable) (stop start : Nat) : Comp Phys (Slice × Nat) := do
  let startVa := VirtAddr.ofUsize start
  let vpn := startVa.floor
  let s ← Comp.get
  let pte ← Comp.unwrap (pageTable.translate s.mem vpn)
  -- the address of a page number is not masked: behind the last page it is `2 ^ 39`
  let endVa := min ((vpn + 1) * 4096) (VirtAddr.ofUsize stop).val
  let bytes := pte.ppn * 4096
  if endVa % 4096 = 0 then
    return (⟨bytes + startVa.pageOffset, 4096 - startVa.pageOffset⟩, endVa)
  else
    -- a slice whose end is before its start
    Comp.assert (startVa.pageOffset ≤ endVa % 4096)
    return (⟨bytes + startVa.pageOffset, endVa % 4096 - startVa.pageOffset⟩, endVa)

/-- At most `fuel` rounds of the loop of `translated_byte_buffers`. -/
def translatedLoop (pageTable : PageTable) (stop : Nat) :
    Nat → Nat → List Slice → Comp Phys (Option (List Slice))
  | 0, start, v => return if start < stop then none else some v
  | fuel + 1, start, v => do
    if start < stop then
      let (slice, start) ← translatedRound pageTable stop start
      translatedLoop pageTable stop fuel start (v ++ [slice])
    else
      return some v

/-- `translated_byte_buffers` -/
def translatedByteBuffers (fuel token ptr len : Nat) : Comp Phys (Option (List Slice)) :=
  translatedLoop (PageTable.fromToken token) (usizeAdd ptr len) fuel ptr []

/-- A `for` loop over a `UserBuffer`: the pointers it goes through. -/
def UserBufferIterator.collect {σ : Type} : Nat → UserBufferIterator → Comp σ (Option (List Nat))
  | 0, _ => return none
  | fuel + 1, it => do
    match ← it.next with
    | (none, _) => return some []
    | (some r, it) => do
      let rs ← collect fuel it
      return rs.map (r :: ·)

/-! ## Strings -/

/-- The bytes of a `String`. -/
def stringBytes (string : String) : List UInt8 := string.toByteArray.data.toList

/-- At most `fuel` rounds of the loop of `translated_str`. -/
def translatedStrLoop (pageTable : PageTable) : Nat → Nat → String → Comp Phys (Option String)
  | 0, _, _ => return none
  | fuel + 1, va, string => do
    let s ← Comp.get
    let pa ← Comp.unwrap (pageTable.translateVa s.mem (VirtAddr.ofUsize va))
    let ch := s.mem pa
    if ch = 0 then return some string
    -- `ch as char`: the character with this number
    else translatedStrLoop pageTable fuel (usizeAdd va 1) (string.push (Char.ofUInt8 ch))

/-- `translated_str` -/
def translatedStr (fuel token ptr : Nat) : Comp Phys (Option String) :=
  translatedStrLoop (PageTable.fromToken token) fuel ptr ""

/-! ## Structures -/

/-- `TimeVal` -/
structure TimeVal where
  sec : Nat
  usec : Nat

/-- The bytes of a `TimeVal`. -/
def TimeVal.asBytes (t : TimeVal) : List UInt8 := leEncode 8 t.sec ++ leEncode 8 t.usec

/-- `Stat` -/
structure Stat where
  dev : Nat
  ino : Nat
  mode : Nat
  nlink : Nat
  pad : Vector Nat 7

/-- The bytes of a `Stat`. -/
def Stat.asBytes (st : Stat) : List UInt8 :=
  leEncode 8 st.dev ++ leEncode 8 st.ino ++ leEncode 4 st.mode ++ leEncode 4 st.nlink ++
    st.pad.toList.flatMap (leEncode 8)

/-- `sys_get_time` at the time `us`. -/
def sysGetTime (fuel token ts us : Nat) : Comp Phys (Option Int) := do
  match ← translatedByteBuffers fuel token ts 16 with
  | none => return none
  | some [] => return some (-1)
  | some (buffer :: _) => do
    storePhys buffer.start (TimeVal.asBytes ⟨us / 1000000, us % 1000000⟩)
    return some 0

/-- `sys_fstat` of a process with the descriptors `fdTable`; `fstat` is that of its files. -/
def sysFstat {File : Type} (fdTable : List (Option File)) (fstat : File → Stat) (fuel token fd st : Nat) :
    Comp Phys (Option Int) := do
  if fd ≥ fdTable.length then
    return some (-1)
  else
    match ← translatedByteBuffers fuel token st 80 with
    | none => return none
    | some [] => return some (-1)
    | some (buffer :: _) => do
      match ← Comp.unwrap fdTable[fd]? with
      | some file => do
        storePhys buffer.start (fstat file).asBytes
        return some 0
      | none => return some (-1)

end RCore.Mm
