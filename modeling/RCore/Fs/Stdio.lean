import RCore.Fs.FdTable
import RCore.Mm.UserMemory

/-!
# The console

`Stdout` (`os/src/fs/stdio.rs`), `print!` (`os/src/console.rs`) and `sys_write` (`os/src/syscall/fs.rs`). What the console
gets is the list of the arguments of `console_putchar`: the numbers of characters, not their bytes.
-/

namespace RCore.Fs

open RCore Mm

/-- Physical memory, and the arguments of `console_putchar` so far. -/
structure Console where
  phys : Phys
  output : List Nat

namespace Console

/-- `console_putchar` -/
def consolePutchar (c : Nat) : Comp Console Unit := Comp.modify fun s => { s with output := s.output ++ [c] }

/-- `write_str`: its loop over the characters. -/
def writeStr : List Char → Comp Console Unit
  | [] => return ()
  | c :: chars => do
    consolePutchar c.toNat
    writeStr chars

/-- The `&[u8]` of a slice. -/
def bytes (s : Console) (b : Slice) : List UInt8 := s.phys.mem.bytes b.start b.len

end Console

/-- `core::str::from_utf8` -/
def fromUtf8 (bytes : List UInt8) : Option String := String.fromUTF8? bytes.toByteArray

namespace Stdout

/-- The loop of `write` over the slices: each is text for itself. -/
def writeLoop : List Slice → Comp Console Unit
  | [] => return ()
  | buffer :: buffers => do
    let s ← Comp.get
    let text ← Comp.unwrap (fromUtf8 (s.bytes buffer))
    Console.writeStr text.toList
    writeLoop buffers

/-- `Stdout::write` -/
def write (userBuf : UserBuffer) : Comp Console Nat := do
  writeLoop userBuf.buffers
  return userBuf.len

end Stdout

/-- `as isize` -/
def asIsize (n : Nat) : Int := if n < 2 ^ 63 then n else n - 2 ^ 64

/-- `sys_write` of a process with the descriptors `fdTable`; `write` is that of the files that are not `Stdout`. -/
def sysWrite (fdTable : FdTable) (write : File → UserBuffer → Comp Console Nat) (fuel token fd buf len : Nat) :
    Comp Console (Option Int) := do
  match fdTable.file fd with
  | some file =>
    if file.writable = false then
      return some (-1)
    else
      match ← Comp.zoom Console.phys (fun s phys => { s with phys }) (translatedByteBuffers fuel token buf len) with
      | none => return none
      | some buffers => do
        let n ← match file with
          | .stdout => Stdout.write ⟨buffers⟩
          | file => write file ⟨buffers⟩
        return some (asIsize n)
  | none => return some (-1)

end RCore.Fs
