import RCore.Mm.FrameAllocator

/-!
# Page tables

The three-level page table of Sv39 (`os/src/mm/page_table.rs`). A table is a frame of 512 entries of
eight bytes; the entries live in physical memory and are read and written there, so that anything
else that writes into the frame of a table changes the table. A `PageTable` owns the frames of its
tables and remembers the root.
-/

namespace RCore.Mm

/-! ## Entries -/

/-- `PTEFlags` -/
abbrev PTEFlags := UInt8

namespace PTEFlags

def V : PTEFlags := 1
def R : PTEFlags := 2
def W : PTEFlags := 4
def X : PTEFlags := 8
def U : PTEFlags := 16

end PTEFlags

/-- `PageTableEntry` -/
structure PageTableEntry where
  bits : Nat
  deriving DecidableEq

namespace PageTableEntry

/-- `PageTableEntry::new` -/
def new (ppn : Nat) (flags : PTEFlags) : PageTableEntry := ⟨ppn * 2 ^ 10 % 2 ^ 64 ||| flags.toNat⟩

/-- `PageTableEntry::empty` -/
def empty : PageTableEntry := ⟨0⟩

/-- `PageTableEntry::ppn` -/
def ppn (pte : PageTableEntry) : Nat := pte.bits / 2 ^ 10 % 2 ^ 44

/-- `PageTableEntry::flags` -/
def flags (pte : PageTableEntry) : PTEFlags := UInt8.ofNat pte.bits

/-- `PageTableEntry::is_valid` -/
def isValid (pte : PageTableEntry) : Bool := (pte.flags &&& PTEFlags.V) != 0

/-- `PageTableEntry::writable` -/
def writable (pte : PageTableEntry) : Bool := (pte.flags &&& PTEFlags.W) != 0

/-- `PageTableEntry::executable` -/
def executable (pte : PageTableEntry) : Bool := (pte.flags &&& PTEFlags.X) != 0

end PageTableEntry

/-- The address of slot `i` of a table: `get_pte_array()[i]`. -/
def pteAddr (ppn : Nat) (i : Fin 512) : Nat := ppn * 4096 + 8 * i.val

def readPte (m : Mem) (a : Nat) : PageTableEntry := ⟨m.word 8 a⟩

def writePte (a : Nat) (pte : PageTableEntry) : Comp Phys Unit :=
  Comp.modify fun s => { s with mem := s.mem.setWord 8 a pte.bits }

/-! ## Tables -/

/-- `PageTable` -/
structure PageTable where
  rootPpn : Nat
  frames : List Nat
  deriving DecidableEq

namespace PageTable

/-- `PageTable::new` -/
def new : Comp Phys PageTable := do
  let frame ← Comp.unwrap (← frameAlloc)
  return { rootPpn := frame, frames := [frame] }

/-- `PageTable::token` -/
def token (pt : PageTable) : Nat := 8 * 2 ^ 60 ||| pt.rootPpn

/-- `PageTable::from_token` -/
def fromToken (satp : Nat) : PageTable := { rootPpn := satp % 2 ^ 44, frames := [] }

/-- The loop of `find_pte` from the table in `ppn` on, over the slots still to pass: the address of
the entry. -/
def findPteLoop (m : Mem) (ppn : Nat) : List (Fin 512) → Option Nat
  | [] => none
  | i :: idxs =>
    let pte := readPte m (pteAddr ppn i)
    if !pte.isValid then none
    else if idxs.isEmpty then some (pteAddr ppn i)
    else findPteLoop m pte.ppn idxs

/-- `PageTable::find_pte` -/
def findPte (m : Mem) (pt : PageTable) (vpn : Nat) : Option Nat :=
  findPteLoop m pt.rootPpn (indexes vpn)

/-- The loop of `find_pte_create`: the address of the entry and the frames of the table. -/
def findPteCreateLoop (ppn : Nat) (frames : List Nat) :
    List (Fin 512) → Comp Phys (Option Nat × List Nat)
  | [] => return (none, frames)
  | i :: idxs => do
    let a := pteAddr ppn i
    if idxs.isEmpty then
      return (some a, frames)
    else
      let s ← Comp.get
      if !(readPte s.mem a).isValid then
        let frame ← Comp.unwrap (← frameAlloc)
        writePte a (PageTableEntry.new frame PTEFlags.V)
        let s ← Comp.get
        findPteCreateLoop (readPte s.mem a).ppn (frames ++ [frame]) idxs
      else
        findPteCreateLoop (readPte s.mem a).ppn frames idxs

/-- `PageTable::find_pte_create` -/
def findPteCreate (pt : PageTable) (vpn : Nat) : Comp Phys (Option Nat × PageTable) := do
  let (a, frames) ← findPteCreateLoop pt.rootPpn pt.frames (indexes vpn)
  return (a, { pt with frames := frames })

/-- `PageTable::map` -/
def map (pt : PageTable) (vpn ppn : Nat) (flags : PTEFlags) : Comp Phys PageTable := do
  let (a, pt) ← findPteCreate pt vpn
  let a ← Comp.unwrap a
  let s ← Comp.get
  Comp.assert (¬ (readPte s.mem a).isValid)
  writePte a (PageTableEntry.new ppn (flags ||| PTEFlags.V))
  return pt

/-- `PageTable::unmap` -/
def unmap (pt : PageTable) (vpn : Nat) : Comp Phys Unit := do
  let s ← Comp.get
  let a ← Comp.unwrap (findPte s.mem pt vpn)
  Comp.assert ((readPte s.mem a).isValid)
  writePte a PageTableEntry.empty

/-- `PageTable::translate` -/
def translate (m : Mem) (pt : PageTable) (vpn : Nat) : Option PageTableEntry :=
  (findPte m pt vpn).map (readPte m)

/-- `PageTable::translate_va`: the physical address. -/
def translateVa (m : Mem) (pt : PageTable) (va : VirtAddr) : Option Nat :=
  (pt.translate m va.floor).map fun pte => (pte.ppn * 4096 + va.pageOffset) % 2 ^ 56

end PageTable

/-- `translated_refmut`: the physical address the reference points at. -/
def translatedRefmut (token ptr : Nat) : Comp Phys Nat := do
  let s ← Comp.get
  Comp.unwrap ((PageTable.fromToken token).translateVa s.mem (VirtAddr.ofUsize ptr))

/-- A store of the bytes `bs` through a reference to the physical address `pa`. The bytes follow each
other in physical memory, whatever the page table says about the addresses after the first. -/
def storePhys (pa : Nat) (bs : List UInt8) : Comp Phys Unit :=
  Comp.modify fun s => { s with mem := s.mem.write pa bs }

end RCore.Mm
