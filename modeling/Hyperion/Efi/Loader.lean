import Hyperion.Efi.Stub
import Hyperion.Lib.Attempt

/-!
# The kernel loader of the UEFI stub

`load_kernel_elf` of `efi-stub/src/main.rs`, with `align_down`, `align_up` and `read_at`.

The image is the list of bytes that the stub embeds.  What the loader does to it and to memory is
its trace: ranges of the image that are read, the pages that `AllocatePages` grants, the range
that is filled with zeros, and the segments that are copied.  It reads nothing from memory, so
memory afterwards is what the trace writes over memory before (`replay`).
-/

namespace Hyperion.Efi

open Hyperion.Lib

def efiSuccess : ℕ := 0
def ptLoad : UInt32 := 1

/-- `KERNEL_ELF_MACHINE`. -/
def kernelElfMachine : Arch → UInt16
  | .aarch64 => 0xb7
  | .x86_64 => 0x3e

/-- The fields of `Elf64Ehdr` that are used. -/
structure Elf64Ehdr where
  eIdent : List UInt8
  eMachine : UInt16
  eEntry : UInt64
  ePhoff : UInt64
  ePhentsize : UInt16
  ePhnum : UInt16
  deriving DecidableEq, Repr

/-- The fields of `Elf64Phdr` that are used. -/
structure Elf64Phdr where
  pType : UInt32
  pOffset : UInt64
  pPaddr : UInt64
  pFilesz : UInt64
  pMemsz : UInt64
  deriving DecidableEq, Repr

/-- `size_of::<Elf64Ehdr>()`. -/
def ehdrSize : ℕ := 64

/-- `size_of::<Elf64Phdr>()`. -/
def phdrSize : ℕ := 56

/-- The little-endian integer of `width` bytes at `off`. -/
def leAt (bytes : List UInt8) (off width : ℕ) : ℕ := fromLe (bytesAt bytes off width)

/-- The bytes of an `Elf64Ehdr`. -/
def Elf64Ehdr.ofBytes (bytes : List UInt8) : Elf64Ehdr where
  eIdent := bytesAt bytes 0 16
  eMachine := UInt16.ofNat (leAt bytes 18 2)
  eEntry := UInt64.ofNat (leAt bytes 24 8)
  ePhoff := UInt64.ofNat (leAt bytes 32 8)
  ePhentsize := UInt16.ofNat (leAt bytes 54 2)
  ePhnum := UInt16.ofNat (leAt bytes 56 2)

/-- The bytes of an `Elf64Phdr`. -/
def Elf64Phdr.ofBytes (bytes : List UInt8) : Elf64Phdr where
  pType := UInt32.ofNat (leAt bytes 0 4)
  pOffset := UInt64.ofNat (leAt bytes 8 8)
  pPaddr := UInt64.ofNat (leAt bytes 24 8)
  pFilesz := UInt64.ofNat (leAt bytes 32 8)
  pMemsz := UInt64.ofNat (leAt bytes 40 8)

/-! ## What the loader touches -/

inductive Access where
  /-- `size` bytes of the image from `offset` on are read. -/
  | read (offset size : ℕ)
  /-- `AllocatePages` grants the pages from `addr` on. -/
  | allocate (addr pages : ℕ)
  /-- `write_bytes` of zeros. -/
  | fill (addr size : ℕ)
  /-- `copy_nonoverlapping` from the image. -/
  | copy (offset addr size : ℕ)
  deriving DecidableEq, Repr

namespace Access

/-- The range of the image that is read: where it starts, and how many bytes. -/
def reads : Access → Option (ℕ × ℕ)
  | read offset size => some (offset, size)
  | copy offset _ size => some (offset, size)
  | allocate _ _ => none
  | fill _ _ => none

/-- The range of memory that is written. -/
def writes : Access → Option (ℕ × ℕ)
  | fill addr size => some (addr, size)
  | copy _ addr size => some (addr, size)
  | read _ _ => none
  | allocate _ _ => none

/-- Memory after the access. -/
def apply (elf : List UInt8) (mem : Memory) : Access → Memory
  | fill addr size => mem.store addr (List.replicate size 0)
  | copy offset addr size => mem.store addr (bytesAt elf offset size)
  | read _ _ => mem
  | allocate _ _ => mem

end Access

/-- Memory after a trace. -/
def replay (elf : List UInt8) (mem : Memory) (trace : List Access) : Memory :=
  trace.foldl (Access.apply elf) mem

abbrev Loading (α : Type) := Attempt Access α

/-! ## Helpers -/

def alignDown (value align : UInt64) : UInt64 := value &&& ~~~(align - 1)

def alignUp (value align : UInt64) : Option UInt64 :=
  (checkedAdd value (align - 1)).map fun v => alignDown v align

/-- `read_at`, for a type of `size` bytes. -/
def readAt (elf : List UInt8) (offset size : ℕ) : Loading (List UInt8) := do
  let stop ← checkedAddUsize offset size
  if elf.length < stop then .giveUp
  else
    .emit (.read offset size)
    pure (bytesAt elf offset size)

/-- `i.checked_mul(e_phentsize as usize)`. -/
def checkedMulUsize (a b : ℕ) : Option ℕ := if a * b < usizeBound then some (a * b) else none

/-- The program header in place `i`. -/
def readPhdr (elf : List UInt8) (ehdr : Elf64Ehdr) (i : ℕ) : Loading Elf64Phdr := do
  let skip ← checkedMulUsize i ehdr.ePhentsize.toNat
  let off ← checkedAddUsize ehdr.ePhoff.toNat skip
  let bytes ← readAt elf off phdrSize
  pure (.ofBytes bytes)

/-- The tests on the header of the image. -/
def Elf64Ehdr.Refused (ehdr : Elf64Ehdr) (arch : Arch) : Prop :=
  bytesAt ehdr.eIdent 0 4 ≠ [0x7f, 0x45, 0x4c, 0x46] ∨ ehdr.eIdent[4]? ≠ some 2 ∨
    ehdr.eIdent[5]? ≠ some 1 ∨ ehdr.eMachine ≠ kernelElfMachine arch ∨
    ehdr.ePhentsize.toNat ≠ phdrSize

instance (ehdr : Elf64Ehdr) (arch : Arch) : Decidable (ehdr.Refused arch) :=
  inferInstanceAs (Decidable (_ ∨ _ ∨ _ ∨ _ ∨ _))

/-! ## The loader -/

/-- One turn of the loop that finds the range of addresses. -/
def extentTurn (elf : List UInt8) (ehdr : Elf64Ehdr) (extent : UInt64 × UInt64) (i : ℕ) :
    Loading (UInt64 × UInt64) := do
  let phdr ← readPhdr elf ehdr i
  if phdr.pType ≠ ptLoad ∨ phdr.pMemsz = 0 then pure extent
  else
    let start := alignDown phdr.pPaddr efiPageSize
    let last ← checkedAdd phdr.pPaddr phdr.pMemsz
    let stop ← alignUp last efiPageSize
    pure (min extent.1 start, max extent.2 stop)

/-- What the loop that copies the segments does with a header. -/
def copySegment (elf : List UInt8) (phdr : Elf64Phdr) : Loading Unit :=
  if phdr.pType ≠ ptLoad ∨ phdr.pFilesz = 0 then pure ()
  else do
    let fileEnd ← checkedAdd phdr.pOffset phdr.pFilesz
    if elf.length < fileEnd.toNat then .giveUp
    else .emit (.copy phdr.pOffset.toNat phdr.pPaddr.toNat phdr.pFilesz.toNat)

/-- One turn of that loop. -/
def copyTurn (elf : List UInt8) (ehdr : Elf64Ehdr) (_ : Unit) (i : ℕ) : Loading Unit := do
  let phdr ← readPhdr elf ehdr i
  copySegment elf phdr

/-- What is done once the range is known.  `allocatePages` is the firmware's reply to the
request for this many pages at this address: a status and an address. -/
def loadSegments (elf : List UInt8) (allocatePages : ℕ → UInt64 → ℕ × UInt64) (ehdr : Elf64Ehdr)
    (loadMin loadMax : UInt64) : Loading UInt64 := do
  let pages := ((loadMax - loadMin) / efiPageSize).toNat
  let reply := allocatePages pages loadMin
  if reply.1 ≠ efiSuccess ∨ reply.2 ≠ loadMin then .giveUp
  else
    .emit (.allocate loadMin.toNat pages)
    .emit (.fill loadMin.toNat (loadMax - loadMin).toNat)
    (List.range ehdr.ePhnum.toNat).foldlM (copyTurn elf ehdr) ()
    pure ehdr.eEntry

def loadKernelElf (arch : Arch) (elf : List UInt8) (allocatePages : ℕ → UInt64 → ℕ × UInt64) :
    Loading UInt64 := do
  let bytes ← readAt elf 0 ehdrSize
  let ehdr := Elf64Ehdr.ofBytes bytes
  if ehdr.Refused arch then .giveUp
  else
    let extent ← (List.range ehdr.ePhnum.toNat).foldlM (extentTurn elf ehdr) (0xFFFFFFFFFFFFFFFF, 0)
    if extent.1 = 0xFFFFFFFFFFFFFFFF ∨ extent.2 ≤ extent.1 then .giveUp
    else loadSegments elf allocatePages ehdr extent.1 extent.2

end Hyperion.Efi
