import Hyperion.Hal.BootInfo
import Hyperion.Lib.ReprC

/-!
# The handoff block as the kernel reads it

`UefiHandoff` and `to_boot_info` of `hal/boot_info.rs`.  The entry code of both
architectures reads the structure from the address that the stub passes, field by
field at the offsets of a C layout.
-/

namespace Hyperion.Hal

open Hyperion.Lib

def uefiHandoffMagic : UInt64 := 0x4859505545464948
def uefiHandoffVersion : UInt32 := 1

structure UefiHandoff where
  magic : UInt64
  version : UInt32
  reserved0 : UInt32
  consoleKind : UInt32
  consoleBase : UInt64
  consoleSize : UInt64
  consoleClockHz : UInt32
  intcKind : UInt32
  intcPrimaryBase : UInt64
  intcPrimarySize : UInt64
  intcSecondaryBase : UInt64
  intcSecondarySize : UInt64
  timerFreqHz : UInt32
  memoryLen : UInt32
  memory : List MemoryRegion
  framebufferPresent : UInt32
  framebufferBase : UInt64
  framebufferSize : UInt64
  framebufferWidth : UInt32
  framebufferHeight : UInt32
  framebufferStrideBytes : UInt32
  framebufferBpp : UInt32
  framebufferFormat : UInt32
  fwTableAddr : UInt64
  deriving DecidableEq, Repr

namespace UefiHandoff

/-! ## Layout -/

/-- The widths of the fields up to `memory_len`. -/
def headWidths : List ℕ := [8, 4, 4, 4, 8, 8, 4, 4, 8, 8, 8, 8, 4, 4]

/-- The widths of the fields behind `memory`. -/
def tailWidths : List ℕ := [4, 8, 8, 4, 4, 4, 4, 4, 8]

/-- The widths of all fields; a region is two of them. -/
def widths : List ℕ := headWidths ++ List.replicate (2 * maxMemoryRegions) 8 ++ tailWidths

/-- Pairs of integers as regions. -/
def regionsOf : List ℕ → List MemoryRegion
  | base :: size :: rest => ⟨UInt64.ofNat base, UInt64.ofNat size⟩ :: regionsOf rest
  | _ => []

/-- The structure whose fields have the given values, in the order of the declaration. -/
def ofValues (values : List ℕ) : Option UefiHandoff :=
  match values.take 14, values.drop (14 + 2 * maxMemoryRegions) with
  | [magic, version, reserved0, consoleKind, consoleBase, consoleSize, consoleClockHz, intcKind,
      intcPrimaryBase, intcPrimarySize, intcSecondaryBase, intcSecondarySize, timerFreqHz,
      memoryLen],
    [framebufferPresent, framebufferBase, framebufferSize, framebufferWidth, framebufferHeight,
      framebufferStrideBytes, framebufferBpp, framebufferFormat, fwTableAddr] =>
      some
        { magic := UInt64.ofNat magic
          version := UInt32.ofNat version
          reserved0 := UInt32.ofNat reserved0
          consoleKind := UInt32.ofNat consoleKind
          consoleBase := UInt64.ofNat consoleBase
          consoleSize := UInt64.ofNat consoleSize
          consoleClockHz := UInt32.ofNat consoleClockHz
          intcKind := UInt32.ofNat intcKind
          intcPrimaryBase := UInt64.ofNat intcPrimaryBase
          intcPrimarySize := UInt64.ofNat intcPrimarySize
          intcSecondaryBase := UInt64.ofNat intcSecondaryBase
          intcSecondarySize := UInt64.ofNat intcSecondarySize
          timerFreqHz := UInt32.ofNat timerFreqHz
          memoryLen := UInt32.ofNat memoryLen
          memory := regionsOf ((values.drop 14).take (2 * maxMemoryRegions))
          framebufferPresent := UInt32.ofNat framebufferPresent
          framebufferBase := UInt64.ofNat framebufferBase
          framebufferSize := UInt64.ofNat framebufferSize
          framebufferWidth := UInt32.ofNat framebufferWidth
          framebufferHeight := UInt32.ofNat framebufferHeight
          framebufferStrideBytes := UInt32.ofNat framebufferStrideBytes
          framebufferBpp := UInt32.ofNat framebufferBpp
          framebufferFormat := UInt32.ofNat framebufferFormat
          fwTableAddr := UInt64.ofNat fwTableAddr }
  | _, _ => none

/-- `(addr as *const UefiHandoff).read_unaligned()`. -/
def readAt (mem : Memory) (addr : ℕ) : Option UefiHandoff :=
  ofValues (ReprC.decode mem addr 0 widths)

/-! ## Decoding -/

/-- The `match` on `console_kind`. -/
def consoleKindOf (code : UInt32) : Option ConsoleKind :=
  if code = 0 then some .pl011
  else if code = 1 then some .ns16550
  else if code = 2 then some .bcmMiniUart
  else none

/-- The `match` on `intc_kind`. -/
def intcKindOf (code : UInt32) : Option IntcKind :=
  if code = 0 then some .gicV2
  else if code = 1 then some .gicV3
  else if code = 2 then some .apic
  else if code = 3 then some .pic8259
  else none

/-- The `match` on `framebuffer_format`. -/
def pixelFormatOf (code : UInt32) : Option PixelFormat :=
  if code = 0 then some .bgra8888 else if code = 1 then some .rgba8888 else none

def toBootInfo (handoff : UefiHandoff) : Option BootInfo :=
  if handoff.magic ≠ uefiHandoffMagic ∨ handoff.version ≠ uefiHandoffVersion then none
  else do
    let consoleKind ← consoleKindOf handoff.consoleKind
    let intcKind ← intcKindOf handoff.intcKind
    let len := min handoff.memoryLen.toNat maxMemoryRegions
    let memory := MemoryMap.empty.pushAll (handoff.memory.take len)
    let framebuffer ←
      if handoff.framebufferPresent ≠ 0 then do
        let format ← pixelFormatOf handoff.framebufferFormat
        pure (some
          { base := handoff.framebufferBase
            width := handoff.framebufferWidth
            height := handoff.framebufferHeight
            strideBytes := handoff.framebufferStrideBytes
            bpp := handoff.framebufferBpp
            format })
      else pure none
    pure
      { console :=
          { kind := consoleKind
            regs := ⟨handoff.consoleBase, handoff.consoleSize⟩
            clockHz := handoff.consoleClockHz }
        memory
        intc :=
          { kind := intcKind
            primary := ⟨handoff.intcPrimaryBase, handoff.intcPrimarySize⟩
            secondary := ⟨handoff.intcSecondaryBase, handoff.intcSecondarySize⟩ }
        timerFreqHz := handoff.timerFreqHz
        framebuffer
        fwTableAddr := handoff.fwTableAddr }

/-- A block with a framebuffer and with codes that the kernel knows is decoded. -/
theorem toBootInfo_of_known {handoff : UefiHandoff} {consoleKind : ConsoleKind}
    {intcKind : IntcKind} {format : PixelFormat} (hmagic : handoff.magic = uefiHandoffMagic)
    (hversion : handoff.version = uefiHandoffVersion)
    (hconsole : consoleKindOf handoff.consoleKind = some consoleKind)
    (hintc : intcKindOf handoff.intcKind = some intcKind)
    (hpresent : handoff.framebufferPresent ≠ 0)
    (hformat : pixelFormatOf handoff.framebufferFormat = some format) :
    handoff.toBootInfo = some
      { console := ⟨consoleKind, ⟨handoff.consoleBase, handoff.consoleSize⟩,
          handoff.consoleClockHz⟩
        memory := MemoryMap.empty.pushAll
          (handoff.memory.take (min handoff.memoryLen.toNat maxMemoryRegions))
        intc := ⟨intcKind, ⟨handoff.intcPrimaryBase, handoff.intcPrimarySize⟩,
          ⟨handoff.intcSecondaryBase, handoff.intcSecondarySize⟩⟩
        timerFreqHz := handoff.timerFreqHz
        framebuffer := some ⟨handoff.framebufferBase, handoff.framebufferWidth,
          handoff.framebufferHeight, handoff.framebufferStrideBytes, handoff.framebufferBpp,
          format⟩
        fwTableAddr := handoff.fwTableAddr } := by
  have hknown : ¬(handoff.magic ≠ uefiHandoffMagic ∨ handoff.version ≠ uefiHandoffVersion) := by
    simp [hmagic, hversion]
  rw [toBootInfo, if_neg hknown, hconsole, hintc]
  simp [hpresent, hformat]

end UefiHandoff

end Hyperion.Hal
