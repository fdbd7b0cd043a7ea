import RCore.Mm.PageTable

/-!
# Address spaces

Map areas and memory sets (`os/src/mm/memory_set.rs`). A memory set records its mappings twice: in
the page table, and in the areas, each of which holds the frames of its pages. Frames go back to the
allocator when the record that holds them is dropped; the model calls `frameDealloc` there, in the
order in which Rust drops the fields of a structure and the entries of a `BTreeMap`.
-/

namespace RCore.Mm

/-- The symbols of the linker script (`os/src/linker-qemu.ld`), as far as the sections do not follow
each other: `srodata`, `sdata`, `sbss_with_stack` and `ebss` are `etext`, `erodata`, `edata` and
`ekernel`. -/
structure Layout where
  strampoline : Nat
  etext : Nat
  erodata : Nat
  edata : Nat
  ekernel : Nat
  aligned : strampoline % 4096 = 0 ∧ etext % 4096 = 0 ∧ erodata % 4096 = 0 ∧ edata % 4096 = 0 ∧
    ekernel % 4096 = 0
  ordered : 0x80200000 ≤ strampoline ∧ strampoline < etext ∧ etext ≤ erodata ∧ erodata ≤ edata ∧
    edata ≤ ekernel
  /-- The kernel fits below `MEMORY_END`. -/
  fits : ekernel ≤ 0x80800000

namespace Layout

/-- `stext` -/
def stext (_ : Layout) : Nat := 0x80200000

/-- The frame of the trampoline code. -/
def trampolinePpn (L : Layout) : Nat := L.strampoline / 4096

/-- The first frame after the kernel image. -/
def firstFrame (L : Layout) : Nat := L.ekernel / 4096

end Layout

/-- `MEMORY_END` -/
def memoryEnd : Nat := 0x80800000

/-! ## Areas -/

/-- `MapType` -/
inductive MapType where
  | identical
  | framed
  deriving DecidableEq

/-- `MapPermission`, whose bits are those of `PTEFlags`. -/
abbrev MapPermission := UInt8

/-- `MapArea`. The entries of `dataFrames` are in the order of their keys, as in a `BTreeMap`. -/
structure MapArea where
  vpnRange : VPNRange
  dataFrames : List (Nat × Nat)
  mapType : MapType
  mapPerm : MapPermission
  deriving DecidableEq

/-- `BTreeMap::insert`, without the value that was there. -/
def insertKey (key value : Nat) : List (Nat × Nat) → List (Nat × Nat)
  | [] => [(key, value)]
  | (k, v) :: entries =>
    if key < k then (key, value) :: (k, v) :: entries
    else if key = k then (key, value) :: entries
    else (k, v) :: insertKey key value entries

namespace MapArea

/-- `MapArea::new` -/
def new (startVa endVa : VirtAddr) (mapType : MapType) (mapPerm : MapPermission) :
    Comp Phys MapArea := do
  let vpnRange ← VPNRange.new startVa.floor endVa.ceil
  return { vpnRange, dataFrames := [], mapType, mapPerm }

/-- `MapArea::from_another` -/
def fromAnother (another : MapArea) : MapArea := { another with dataFrames := [] }

/-- `data_frames.contains_key` -/
def holds (area : MapArea) (vpn : Nat) : Bool := (area.dataFrames.lookup vpn).isSome

/-- `data_frames.insert(vpn, frame)`, which drops the frame that was there. -/
def insertFrame (area : MapArea) (vpn frame : Nat) : Comp Phys MapArea := do
  if let some old := area.dataFrames.lookup vpn then frameDealloc old
  return { area with dataFrames := insertKey vpn frame area.dataFrames }

/-- `data_frames.remove(&vpn)`, which drops the frame that was there. -/
def removeFrame (area : MapArea) (vpn : Nat) : Comp Phys MapArea := do
  if let some old := area.dataFrames.lookup vpn then frameDealloc old
  return { area with dataFrames := area.dataFrames.filter fun e => e.1 ≠ vpn }

/-- `MapArea::map_one` -/
def mapOne (area : MapArea) (pt : PageTable) (vpn : Nat) :
    Comp Phys (Except String Unit × MapArea × PageTable) :=
  match area.mapType with
  | .framed => do
    match ← frameAlloc with
    | some frame =>
      let area ← area.insertFrame vpn frame
      let pt ← pt.map vpn frame area.mapPerm
      return (.ok (), area, pt)
    | none => return (.error "No enough physical space", area, pt)
  | .identical => do
    let pt ← pt.map vpn vpn area.mapPerm
    return (.ok (), area, pt)

/-- `MapArea::unmap_one` -/
def unmapOne (area : MapArea) (pt : PageTable) (vpn : Nat) : Comp Phys MapArea := do
  let area ← if area.mapType = .framed then area.removeFrame vpn else pure area
  pt.unmap vpn
  return area

/-- The loop of `map` over the pages still to map. -/
def mapLoop (area : MapArea) (pt : PageTable) :
    List Nat → Comp Phys (Except String Unit × MapArea × PageTable)
  | [] => return (.ok (), area, pt)
  | vpn :: vpns => do
    match ← area.mapOne pt vpn with
    | (.ok _, area, pt) => mapLoop area pt vpns
    | (.error e, area, pt) => return (.error e, area, pt)

/-- `MapArea::map` -/
def map (area : MapArea) (pt : PageTable) : Comp Phys (Except String Unit × MapArea × PageTable) :=
  area.mapLoop pt area.vpnRange.toList

/-- The loop of `unmap` over the pages still to unmap. -/
def unmapLoop (area : MapArea) (pt : PageTable) : List Nat → Comp Phys MapArea
  | [] => return area
  | vpn :: vpns => do
    let area ← area.unmapOne pt vpn
    unmapLoop area pt vpns

/-- `MapArea::unmap` -/
def unmap (area : MapArea) (pt : PageTable) : Comp Phys MapArea :=
  area.unmapLoop pt area.vpnRange.toList

/-- The rounds `ks` of the loop of `copy_data`: round `k` copies the bytes from `k * PAGE_SIZE` on
to page `k` of the area. -/
def copyDataLoop (area : MapArea) (pt : PageTable) (data : List UInt8) : List Nat → Comp Phys Unit
  | [] => return ()
  | k :: ks => do
    let src := (data.drop (k * 4096)).take 4096
    let s ← Comp.get
    let pte ← Comp.unwrap (pt.translate s.mem (area.vpnRange.l + k))
    storePhys (pte.ppn * 4096) src
    copyDataLoop area pt data ks

/-- `MapArea::copy_data`: its loop ends after the round that reaches the end of the data, so it runs
at least once. -/
def copyData (area : MapArea) (pt : PageTable) (data : List UInt8) : Comp Phys Unit := do
  Comp.assert (area.mapType = .framed)
  area.copyDataLoop pt data (List.range (max 1 ((data.length + 4095) / 4096)))

/-- Drop an area. -/
def drop (area : MapArea) : Comp Phys Unit := dropFrames (area.dataFrames.map Prod.snd)

end MapArea

/-! ## Memory sets -/

/-- `MemorySet` -/
structure MemorySet where
  pageTable : PageTable
  areas : List MapArea
  deriving DecidableEq

/-- `unwrap` of a `Result`. -/
def unwrapOk {σ : Type} : Except String Unit → Comp σ Unit
  | .ok _ => return ()
  | .error _ => Comp.panic

/-- A loadable or other program header of an ELF file, as `xmas_elf` presents it. -/
structure ProgramHeader where
  isLoad : Bool
  virtualAddr : Nat
  memSize : Nat
  offset : Nat
  fileSize : Nat
  isRead : Bool
  isWrite : Bool
  isExecute : Bool
  deriving DecidableEq

/-- An ELF file that `xmas_elf` parses and whose magic number is right. -/
structure ElfFile where
  input : List UInt8
  programHeaders : List ProgramHeader
  entryPoint : Nat
  deriving DecidableEq

namespace MemorySet

/-- `MemorySet::new_bare` -/
def newBare : Comp Phys MemorySet := do
  let pageTable ← PageTable.new
  return { pageTable, areas := [] }

/-- `MemorySet::token` -/
def token (ms : MemorySet) : Nat := ms.pageTable.token

/-- `MemorySet::translate` -/
def translate (m : Mem) (ms : MemorySet) (vpn : Nat) : Option PageTableEntry :=
  ms.pageTable.translate m vpn

/-- `MemorySet::push`. On an error the area is dropped. -/
def push (ms : MemorySet) (area : MapArea) (data : Option (List UInt8)) :
    Comp Phys (Except String Unit × MemorySet) := do
  let (r, area, pageTable) ← area.map ms.pageTable
  match r with
  | .ok _ =>
    if let some data := data then area.copyData pageTable data
    return (.ok (), { pageTable, areas := ms.areas ++ [area] })
  | .error e =>
    area.drop
    return (.error e, { ms with pageTable })

/-- `MemorySet::insert_framed_area` -/
def insertFramedArea (ms : MemorySet) (startVa endVa : VirtAddr) (permission : MapPermission) :
    Comp Phys (Except String Unit × MemorySet) := do
  let area ← MapArea.new startVa endVa .framed permission
  ms.push area none

/-- `MemorySet::map_trampoline` -/
def mapTrampoline (L : Layout) (ms : MemorySet) : Comp Phys MemorySet := do
  let vpn ← (VirtAddr.ofUsize trampoline).toVpn
  Comp.assert (L.strampoline % 4096 = 0)
  let pageTable ← ms.pageTable.map vpn L.trampolinePpn (PTEFlags.R ||| PTEFlags.X)
  return { ms with pageTable }

/-- `MemorySet::remove_area_with_start_vpn` -/
def removeAreaWithStartVpn (ms : MemorySet) (startVpn : Nat) : Comp Phys MemorySet := do
  match ms.areas.findIdx? fun area => area.vpnRange.l = startVpn with
  | some idx =>
    let area ← Comp.unwrap ms.areas[idx]?
    let area ← area.unmap ms.pageTable
    area.drop
    return { ms with areas := ms.areas.eraseIdx idx }
  | none => return ms

/-- The second loop of `remove_mapped_frames` over the pages still to remove. -/
def removeFramesLoop (ms : MemorySet) : List Nat → Comp Phys MemorySet
  | [] => return ms
  | vpn :: vpns => do
    let index ← Comp.unwrap (ms.areas.findIdx? fun area => area.holds vpn)
    let area ← Comp.unwrap ms.areas[index]?
    let area ← area.unmapOne ms.pageTable vpn
    let area ← area.removeFrame vpn
    let areas := if area.dataFrames.isEmpty then ms.areas.eraseIdx index
      else ms.areas.set index area
    removeFramesLoop { ms with areas } vpns

/-- `MemorySet::remove_mapped_frames` -/
def removeMappedFrames (ms : MemorySet) (startVa endVa : VirtAddr) : Comp Phys (Int × MemorySet) := do
  let range ← VPNRange.new startVa.floor endVa.ceil
  if range.toList.any fun vpn => !ms.areas.any fun area => area.holds vpn then
    return (-1, ms)
  else
    let ms ← ms.removeFramesLoop range.toList
    return (0, ms)

/-- The drop of a collection of areas. -/
def dropAreas : List MapArea → Comp Phys Unit
  | [] => return ()
  | area :: areas => do
    area.drop
    dropAreas areas

/-- `MemorySet::recycle_data_pages` -/
def recycleDataPages (ms : MemorySet) : Comp Phys MemorySet := do
  dropAreas ms.areas
  return { ms with areas := [] }

/-- The drop of a memory set: its page table, then its areas. -/
def drop (ms : MemorySet) : Comp Phys Unit := do
  dropFrames ms.pageTable.frames
  dropAreas ms.areas

/-- The inner loop of `from_existed_userspace`: copy the pages `vpns`. -/
def copyPages (userSpace ms : MemorySet) : List Nat → Comp Phys Unit
  | [] => return ()
  | vpn :: vpns => do
    let s ← Comp.get
    let src ← Comp.unwrap (userSpace.translate s.mem vpn)
    let dst ← Comp.unwrap (ms.translate s.mem vpn)
    Comp.modify fun s => { s with mem := copyFrame s.mem dst.ppn src.ppn }
    copyPages userSpace ms vpns

/-- The outer loop of `from_existed_userspace`: copy the areas still to copy. -/
def copyAreas (userSpace : MemorySet) (ms : MemorySet) : List MapArea → Comp Phys MemorySet
  | [] => return ms
  | area :: areas => do
    let (r, ms) ← ms.push area.fromAnother none
    unwrapOk r
    copyPages userSpace ms area.vpnRange.toList
    copyAreas userSpace ms areas

/-- `MemorySet::from_existed_userspace` -/
def fromExistedUserspace (L : Layout) (userSpace : MemorySet) : Comp Phys MemorySet := do
  let ms ← newBare
  let ms ← ms.mapTrampoline L
  copyAreas userSpace ms userSpace.areas

/-- `push(MapArea::new(start, end, map_type, perm), data).unwrap()` -/
def pushNew (ms : MemorySet) (start stop : Nat) (mapType : MapType) (mapPerm : MapPermission)
    (data : Option (List UInt8)) : Comp Phys MemorySet := do
  let area ← MapArea.new (VirtAddr.ofUsize start) (VirtAddr.ofUsize stop) mapType mapPerm
  let (r, ms) ← ms.push area data
  unwrapOk r
  return ms

/-- `MemorySet::new_kernel`, with the one pair of `MMIO`. -/
def newKernel (L : Layout) : Comp Phys MemorySet := do
  let ms ← newBare
  let ms ← ms.mapTrampoline L
  let ms ← ms.pushNew L.stext L.etext .identical (PTEFlags.R ||| PTEFlags.X) none
  let ms ← ms.pushNew L.etext L.erodata .identical PTEFlags.R none
  let ms ← ms.pushNew L.erodata L.edata .identical (PTEFlags.R ||| PTEFlags.W) none
  let ms ← ms.pushNew L.edata L.ekernel .identical (PTEFlags.R ||| PTEFlags.W) none
  let ms ← ms.pushNew L.ekernel memoryEnd .identical (PTEFlags.R ||| PTEFlags.W) none
  let area ← MapArea.new (VirtAddr.ofUsize 0x10001000) (VirtAddr.ofUsize 0x10002000) .identical
    (PTEFlags.R ||| PTEFlags.W)
  let (_, ms) ← ms.push area none
  return ms

/-- `remap_test` on the kernel's memory set; `srodata` is `etext` and `sdata` is `erodata`. -/
def remapTest (L : Layout) (kernelSpace : MemorySet) : Comp Phys Unit := do
  let midText := VirtAddr.ofUsize (usizeAdd L.stext L.etext / 2)
  let midRodata := VirtAddr.ofUsize (usizeAdd L.etext L.erodata / 2)
  let midData := VirtAddr.ofUsize (usizeAdd L.erodata L.edata / 2)
  let s ← Comp.get
  let pte ← Comp.unwrap (kernelSpace.pageTable.translate s.mem midText.floor)
  Comp.assert (pte.writable = false)
  let pte ← Comp.unwrap (kernelSpace.pageTable.translate s.mem midRodata.floor)
  Comp.assert (pte.writable = false)
  let pte ← Comp.unwrap (kernelSpace.pageTable.translate s.mem midData.floor)
  Comp.assert (pte.executable = false)

/-- The permissions `from_elf` gives to a segment. -/
def segmentPerm (ph : ProgramHeader) : MapPermission :=
  PTEFlags.U ||| (if ph.isRead then PTEFlags.R else 0) ||| (if ph.isWrite then PTEFlags.W else 0) |||
    (if ph.isExecute then PTEFlags.X else 0)

/-- The loop of `from_elf` over the program headers still to map. It carries `max_end_vpn`. -/
def mapSegments (elf : ElfFile) (ms : MemorySet) (maxEndVpn : Nat) :
    List ProgramHeader → Comp Phys (MemorySet × Nat)
  | [] => return (ms, maxEndVpn)
  | ph :: phs => do
    if ph.isLoad then
      let startVa := VirtAddr.ofUsize ph.virtualAddr
      let endVa := VirtAddr.ofUsize (usizeAdd ph.virtualAddr ph.memSize)
      let area ← MapArea.new startVa endVa .framed (segmentPerm ph)
      let stop := usizeAdd ph.offset ph.fileSize
      Comp.assert (ph.offset ≤ stop ∧ stop ≤ elf.input.length)
      let (r, ms) ← ms.push area (some ((elf.input.drop ph.offset).take (stop - ph.offset)))
      unwrapOk r
      mapSegments elf ms area.vpnRange.r phs
    else
      mapSegments elf ms maxEndVpn phs

/-- `MemorySet::from_elf`: the memory set, the top of the user stack and the entry point. -/
def fromElf (L : Layout) (elf : ElfFile) : Comp Phys (MemorySet × Nat × Nat) := do
  let ms ← newBare
  let ms ← ms.mapTrampoline L
  let (ms, maxEndVpn) ← mapSegments elf ms 0 elf.programHeaders
  let userStackBottom := usizeAdd (usizeMul maxEndVpn 4096) 4096
  let userStackTop := usizeAdd userStackBottom 8192
  let ms ← ms.pushNew userStackBottom userStackTop .framed
    (PTEFlags.R ||| PTEFlags.W ||| PTEFlags.U) none
  let ms ← ms.pushNew trapContext trampoline .framed (PTEFlags.R ||| PTEFlags.W) none
  return (ms, userStackTop, elf.entryPoint)

end MemorySet

/-! ## The memory system calls on an address space -/

/-- A length rounded up to whole pages. -/
def roundUp (len : Nat) : Nat := usizeMul (usizeSub (usizeAdd len 4096) 1 / 4096) 4096

/-- The permissions `sys_mmap` gives for `prot`. -/
def protPerm (prot : Nat) : MapPermission :=
  PTEFlags.U ||| (if prot.testBit 0 then PTEFlags.R else 0) |||
    (if prot.testBit 1 then PTEFlags.W else 0) ||| (if prot.testBit 2 then PTEFlags.X else 0)

/-- `sys_mmap` of a process whose address space is `ms` (`os/src/syscall/memory.rs`). -/
def sysMmap (ms : MemorySet) (start len prot : Nat) : Comp Phys (Int × MemorySet) := do
  if start % 4096 ≠ 0 ∨ prot / 8 ≠ 0 ∨ prot % 8 = 0 then
    return (-1, ms)
  else
    let startVa := VirtAddr.ofUsize start
    let endVa := VirtAddr.ofUsize (usizeAdd start (roundUp len))
    let range ← VPNRange.new startVa.floor endVa.ceil
    let s ← Comp.get
    if range.toList.any fun vpn =>
        ((PageTable.fromToken ms.token).translate s.mem vpn).isSome then
      return (-1, ms)
    else
      let (r, ms) ← ms.insertFramedArea startVa endVa (protPerm prot)
      match r with
      | .ok _ => return (0, ms)
      | .error _ => return (-1, ms)

/-- `sys_munmap` of a process whose address space is `ms`. -/
def sysMunmap (ms : MemorySet) (start len : Nat) : Comp Phys (Int × MemorySet) := do
  if start % 4096 ≠ 0 then
    return (-1, ms)
  else
    let startVa := VirtAddr.ofUsize start
    let endVa := VirtAddr.ofUsize (usizeAdd start (roundUp len))
    let range ← VPNRange.new startVa.floor endVa.ceil
    let s ← Comp.get
    if range.toList.any fun vpn =>
        ((PageTable.fromToken ms.token).translate s.mem vpn).isNone then
      return (-1, ms)
    else
      ms.removeMappedFrames startVa endVa

end RCore.Mm
