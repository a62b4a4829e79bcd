import Hyperion.Hal.BootInfo
import Hyperion.Lib.ReprC
import Hyperion.Lib.Word

/-!
# The handoff block as the UEFI stub builds it

`build_handoff` of `efi-stub/src/main.rs`, with its own declarations of the block and
of the constants in it.  The stub is one source for both architectures; what
differs is a parameter.

The firmware's replies are data: the memory map that `get_memory_map` accepted, and
the mode of the graphics output protocol.
-/

namespace Hyperion.Efi

open Hyperion.Lib

inductive Arch where
  | aarch64
  | x86_64
  deriving DecidableEq, Repr

def efiPageSize : UInt64 := 4096
def efiConventionalMemory : UInt32 := 7
def memoryMapBufSize : ℕ := 64 * 1024
def maxMemoryRegions : ℕ := 8
def uefiHandoffMagic : UInt64 := 0x4859505545464948
def uefiHandoffVersion : UInt32 := 1

/-! ## What the firmware reports -/

/-- `size_of::<EfiMemoryDescriptor>()`. -/
def descriptorSize : ℕ := 40

/-- The fields of `EfiMemoryDescriptor` that are used. -/
structure EfiMemoryDescriptor where
  typ : UInt32
  physicalStart : UInt64
  numberOfPages : UInt64

/-- The memory map in the buffer of the stub, as a successful `GetMemoryMap` leaves it:
an array of descriptors of `descSize` bytes each.  That a descriptor is not too
short is checked by `get_memory_map`. -/
structure MemoryMapSnapshot where
  /-- The bytes of the buffer by their offset. -/
  bytes : Memory
  size : ℕ
  descSize : ℕ
  size_le : size ≤ memoryMapBufSize
  descSize_dvd : descSize ∣ size
  descSize_ge : descriptorSize ≤ descSize

/-- `read_unaligned` of the descriptor at `off`. -/
def MemoryMapSnapshot.descriptor (map : MemoryMapSnapshot) (off : ℕ) : EfiMemoryDescriptor where
  typ := UInt32.ofNat (map.bytes.load off 4)
  physicalStart := UInt64.ofNat (map.bytes.load (off + 8) 8)
  numberOfPages := UInt64.ofNat (map.bytes.load (off + 24) 8)

structure EfiPixelBitmask where
  red : UInt32
  green : UInt32
  blue : UInt32
  reserved : UInt32
  deriving DecidableEq, Repr

/-- `EfiGraphicsOutputProtocolMode` with the information it points to. -/
structure GopMode where
  horizontalResolution : UInt32
  verticalResolution : UInt32
  pixelFormat : UInt32
  pixelInformation : EfiPixelBitmask
  pixelsPerScanLine : UInt32
  framebufferBase : UInt64
  framebufferSize : UInt64
  deriving DecidableEq, Repr

def pixelRedGreenBlueReserved8BitPerColor : UInt32 := 0
def pixelBlueGreenRedReserved8BitPerColor : UInt32 := 1
def pixelBitMask : UInt32 := 2

/-! ## The block -/

structure HandoffMemoryRegion where
  base : UInt64
  size : UInt64
  deriving DecidableEq, Repr

structure EfiHandoff where
  magic : UInt64
  version : UInt32
  reserved0 : UInt32
  consoleKind : UInt32
  consoleBase : UInt64
  consoleSize : UInt64
  consoleClockHz : UInt32
  intcKind : UInt32
  intcPrimaryBase : UInt64
  intcPrimarySize : UInt64
  intcSecondaryBase : UInt64
  intcSecondarySize : UInt64
  timerFreqHz : UInt32
  memoryLen : UInt32
  memory : List HandoffMemoryRegion
  framebufferPresent : UInt32
  framebufferBase : UInt64
  framebufferSize : UInt64
  framebufferWidth : UInt32
  framebufferHeight : UInt32
  framebufferStrideBytes : UInt32
  framebufferBpp : UInt32
  framebufferFormat : UInt32
  fwTableAddr : UInt64
  deriving DecidableEq, Repr

namespace EfiHandoff

open ReprC (u32 u64)

/-- The fields in the order of the declaration. -/
def fields (handoff : EfiHandoff) : List ReprC.Field :=
  [u64 handoff.magic, u32 handoff.version, u32 handoff.reserved0, u32 handoff.consoleKind,
    u64 handoff.consoleBase, u64 handoff.consoleSize, u32 handoff.consoleClockHz,
    u32 handoff.intcKind, u64 handoff.intcPrimaryBase, u64 handoff.intcPrimarySize,
    u64 handoff.intcSecondaryBase, u64 handoff.intcSecondarySize, u32 handoff.timerFreqHz,
    u32 handoff.memoryLen] ++
  handoff.memory.flatMap (fun region => [u64 region.base, u64 region.size]) ++
  [u32 handoff.framebufferPresent, u64 handoff.framebufferBase, u64 handoff.framebufferSize,
    u32 handoff.framebufferWidth, u32 handoff.framebufferHeight,
    u32 handoff.framebufferStrideBytes, u32 handoff.framebufferBpp,
    u32 handoff.framebufferFormat, u64 handoff.fwTableAddr]

/-- The block in memory; the bytes between the fields are arbitrary. -/
def bytes (pad : ℕ → UInt8) (handoff : EfiHandoff) : List UInt8 :=
  ReprC.encode pad 0 handoff.fields

/-- The regions that `memory_len` counts. -/
def regions (handoff : EfiHandoff) : List HandoffMemoryRegion :=
  handoff.memory.take handoff.memoryLen.toNat

end EfiHandoff

/-- `u32::saturating_mul`. -/
def saturatingMul32 (a b : UInt32) : UInt32 :=
  if a.toNat * b.toNat < 2 ^ 32 then a * b else 0xFFFFFFFF

/-- `u64::saturating_mul`. -/
def saturatingMul64 (a b : UInt64) : UInt64 :=
  if a.toNat * b.toNat < 2 ^ 64 then a * b else 0xFFFFFFFFFFFFFFFF

/-- The end of `push_memory_region`: a new region, if there is room. -/
def appendRegion (handoff : EfiHandoff) (base size : UInt64) : Checked EfiHandoff :=
  if handoff.memoryLen.toNat < maxMemoryRegions then do
    let memory ← setIndex handoff.memory handoff.memoryLen.toNat ⟨base, size⟩
    pure { handoff with memory, memoryLen := handoff.memoryLen + 1 }
  else pure handoff

def pushMemoryRegion (handoff : EfiHandoff) (base size : UInt64) : Checked EfiHandoff :=
  if size = 0 then pure handoff
  else if 0 < handoff.memoryLen.toNat then do
    let prev ← index handoff.memory (handoff.memoryLen.toNat - 1)
    if saturatingAdd prev.base prev.size = base then
      -- adjacent regions become one
      let memory ← setIndex handoff.memory (handoff.memoryLen.toNat - 1)
        { prev with size := saturatingAdd prev.size size }
      pure { handoff with memory }
    else appendRegion handoff base size
  else appendRegion handoff base size

/-- The region of a descriptor is entered if it is conventional memory. -/
def enterDescriptor (handoff : EfiHandoff) (desc : EfiMemoryDescriptor) : Checked EfiHandoff :=
  if desc.typ = efiConventionalMemory then
    pushMemoryRegion handoff desc.physicalStart (saturatingMul64 desc.numberOfPages efiPageSize)
  else pure handoff

/-- One turn of the loop over the memory map. -/
def descriptorTurn (map : MemoryMapSnapshot) :
    ℕ × EfiHandoff → Checked (Turn (ℕ × EfiHandoff) EfiHandoff)
  | (off, handoff) => do
      let stop ← addUsize off descriptorSize
      if stop ≤ map.size then
        let handoff ← enterDescriptor handoff (map.descriptor off)
        pure (.again (saturatingAddUsize off map.descSize, handoff))
      else pure (.leave handoff)

/-- The code for the pixel format. -/
def framebufferFormat (mode : GopMode) : UInt32 :=
  if mode.pixelFormat = pixelRedGreenBlueReserved8BitPerColor then 1 else 0

/-- The block before any memory is entered.  The codes are `ConsoleKind::Pl011` and
`IntcKind::GicV2` on aarch64, `ConsoleKind::Ns16550` and `IntcKind::Apic` on x86_64. -/
def emptyHandoff (arch : Arch) (mode : GopMode) (fwTableAddr : UInt64) : EfiHandoff where
  magic := uefiHandoffMagic
  version := uefiHandoffVersion
  reserved0 := 0
  consoleKind := match arch with | .aarch64 => 0 | .x86_64 => 1
  consoleBase := match arch with | .aarch64 => 0x09000000 | .x86_64 => 0x3f8
  consoleSize := match arch with | .aarch64 => 0x1000 | .x86_64 => 8
  consoleClockHz := match arch with | .aarch64 => 24000000 | .x86_64 => 1843200
  intcKind := match arch with | .aarch64 => 0 | .x86_64 => 2
  intcPrimaryBase := match arch with | .aarch64 => 0x08000000 | .x86_64 => 0xfee00000
  intcPrimarySize := match arch with | .aarch64 => 0x10000 | .x86_64 => 0x1000
  intcSecondaryBase := match arch with | .aarch64 => 0x08010000 | .x86_64 => 0xfec00000
  intcSecondarySize := match arch with | .aarch64 => 0x10000 | .x86_64 => 0x1000
  timerFreqHz := 0
  memoryLen := 0
  memory := List.replicate maxMemoryRegions ⟨0, 0⟩
  framebufferPresent := 1
  framebufferBase := mode.framebufferBase
  framebufferSize := mode.framebufferSize
  framebufferWidth := mode.horizontalResolution
  framebufferHeight := mode.verticalResolution
  framebufferStrideBytes := saturatingMul32 mode.pixelsPerScanLine 4
  framebufferBpp := 32
  framebufferFormat := framebufferFormat mode
  fwTableAddr

/-- The bank for a map without conventional memory. -/
def fallbackRegion : Arch → HandoffMemoryRegion
  | .aarch64 => ⟨0x40000000, 256 * 1024 * 1024⟩
  | .x86_64 => ⟨0x100000, 128 * 1024 * 1024⟩

/-- `build_handoff`.  Each turn of the loop advances by a descriptor. -/
def buildHandoff (arch : Arch) (map : MemoryMapSnapshot) (mode : GopMode) (fwTableAddr : UInt64) :
    Checked EfiHandoff := do
  let handoff ← loop (descriptorTurn map) (map.size + 1) (0, emptyHandoff arch mode fwTableAddr)
  if handoff.memoryLen = 0 then
    pushMemoryRegion handoff (fallbackRegion arch).base (fallbackRegion arch).size
  else pure handoff

end Hyperion.Efi
