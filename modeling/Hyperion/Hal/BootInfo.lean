import Mathlib

/-!
# The machine description handed to the kernel

`hal/boot_info.rs`: what the boot stub found out about the machine.  Only the
part that the parsers fill in and the memory manager reads is kept; the handoff
block of the UEFI stub is a separate structure.

The list of RAM banks is private to its module in the source and only grows
through `push`, so the cap of eight banks and the absence of empty banks are
fields of `MemoryMap` here.
-/

namespace Hyperion.Hal

/-- The console UARTs the kernel can drive. -/
inductive ConsoleKind where
  | pl011
  | ns16550
  | bcmMiniUart
  deriving DecidableEq, Repr

/-- The boot interrupt controllers. -/
inductive IntcKind where
  | gicV2
  | gicV3
  | apic
  | pic8259
  deriving DecidableEq, Repr

/-- Byte order of a 32-bit pixel in memory. -/
inductive PixelFormat where
  | bgra8888
  | rgba8888
  deriving DecidableEq, Repr

/-- One MMIO range. -/
structure RegSpec where
  base : UInt64
  size : UInt64
  deriving DecidableEq, Repr

/-- One contiguous RAM bank. -/
structure MemoryRegion where
  base : UInt64
  size : UInt64
  deriving DecidableEq, Repr

/-- A framebuffer set up by the firmware. -/
structure FramebufferInfo where
  base : UInt64
  width : UInt32
  height : UInt32
  strideBytes : UInt32
  bpp : UInt32
  format : PixelFormat
  deriving DecidableEq, Repr

/-- The console UART: its kind, registers and input clock. -/
structure ConsoleSpec where
  kind : ConsoleKind
  regs : RegSpec
  clockHz : UInt32
  deriving DecidableEq, Repr

/-- The interrupt controller: its kind and register windows. -/
structure IntcSpec where
  kind : IntcKind
  primary : RegSpec
  secondary : RegSpec
  deriving DecidableEq, Repr

/-- `MAX_MEMORY_REGIONS`. -/
def maxMemoryRegions : ℕ := 8

/-- The RAM banks in the order they were pushed. -/
structure MemoryMap where
  regions : List MemoryRegion
  length_le : regions.length ≤ maxMemoryRegions
  size_pos : ∀ region ∈ regions, 0 < region.size
  deriving DecidableEq

namespace MemoryMap

/-- `MemoryMap::empty`. -/
def empty : MemoryMap := ⟨[], by decide, by simp⟩

/-- `MemoryMap::push`: a region past the cap, or an empty one, is dropped. -/
def push (memory : MemoryMap) (region : MemoryRegion) : MemoryMap :=
  if h : memory.regions.length < maxMemoryRegions ∧ 0 < region.size then
    { regions := memory.regions ++ [region]
      length_le := by
        rw [List.length_append, List.length_singleton]
        exact h.1
      size_pos := by
        intro candidate hcandidate
        rcases List.mem_append.mp hcandidate with hold | hnew
        · exact memory.size_pos candidate hold
        · rw [List.mem_singleton.mp hnew]
          exact h.2 }
  else memory

/-- All of `regions`, one after the other. -/
def pushAll (memory : MemoryMap) (regions : List MemoryRegion) : MemoryMap :=
  regions.foldl push memory

theorem regions_push {memory : MemoryMap} {region : MemoryRegion} (hpos : 0 < region.size) :
    (memory.push region).regions = (memory.regions ++ [region]).take maxMemoryRegions := by
  have hle := memory.length_le
  unfold push
  split
  · rename_i hroom
    rw [List.take_of_length_le]
    simpa using hroom.1
  · rename_i hfull
    have hlength : memory.regions.length = maxMemoryRegions := by
      have hnot : ¬memory.regions.length < maxMemoryRegions := fun hlt => hfull ⟨hlt, hpos⟩
      omega
    rw [← hlength, List.take_left]

/-- Cutting a list before or after something is appended to it. -/
theorem take_take_append (front back : List MemoryRegion) (n : ℕ) :
    (front.take n ++ back).take n = (front ++ back).take n := by
  rcases Nat.le_total front.length n with hle | hge
  · rw [List.take_of_length_le hle]
  · rw [List.take_append_of_le_length (by simpa using hge), List.take_take, Nat.min_self,
      List.take_append_of_le_length hge]

/-- The map keeps the first eight banks it is given. -/
theorem regions_pushAll {regions : List MemoryRegion} (hpos : ∀ region ∈ regions, 0 < region.size)
    (memory : MemoryMap) :
    (memory.pushAll regions).regions = (memory.regions ++ regions).take maxMemoryRegions := by
  induction regions generalizing memory with
  | nil =>
    rw [List.append_nil, List.take_of_length_le memory.length_le]
    rfl
  | cons region rest ih =>
    have hrest : ∀ r ∈ rest, 0 < r.size := fun r hr => hpos r (List.mem_cons_of_mem _ hr)
    show ((memory.push region).pushAll rest).regions = _
    rw [ih hrest, regions_push (hpos region List.mem_cons_self)]
    rw [take_take_append, List.append_assoc]
    rfl

/-- `MemoryMap::largest`: `max_by_key` on the size, which keeps the last of
several maximal banks. -/
def largest (memory : MemoryMap) : Option MemoryRegion :=
  memory.regions.foldl (fun best region =>
    match best with
    | none => some region
    | some kept => if kept.size ≤ region.size then some region else some kept) none

theorem exists_foldl_largest (regions : List MemoryRegion) (kept : MemoryRegion) :
    ∃ bank, regions.foldl (fun best region =>
        match best with
        | none => some region
        | some kept => if kept.size ≤ region.size then some region else some kept) (some kept) =
          some bank ∧
      kept.size ≤ bank.size ∧ ∀ region ∈ regions, region.size ≤ bank.size := by
  induction regions generalizing kept with
  | nil => exact ⟨kept, rfl, UInt64.le_refl _, nofun⟩
  | cons region regions ih =>
    rw [List.foldl_cons]
    dsimp only
    split
    case isTrue hle =>
      obtain ⟨bank, hbank, hregion, hrest⟩ := ih region
      exact ⟨bank, hbank, UInt64.le_trans hle hregion, List.forall_mem_cons.mpr ⟨hregion, hrest⟩⟩
    case isFalse hlt =>
      obtain ⟨bank, hbank, hkept, hrest⟩ := ih kept
      have hle : region.size ≤ kept.size := UInt64.le_of_lt (UInt64.not_le.mp hlt)
      exact ⟨bank, hbank, hkept, List.forall_mem_cons.mpr ⟨UInt64.le_trans hle hkept, hrest⟩⟩

/-- No bank of the map exceeds the largest one. -/
theorem exists_largest {memory : MemoryMap} {region : MemoryRegion}
    (hmem : region ∈ memory.regions) :
    ∃ bank, memory.largest = some bank ∧ region.size ≤ bank.size := by
  unfold largest
  cases hregions : memory.regions with
  | nil => simp [hregions] at hmem
  | cons first rest =>
    obtain ⟨bank, hbank, hfirst, hrest⟩ := exists_foldl_largest rest first
    have hall : ∀ region ∈ first :: rest, region.size ≤ bank.size :=
      List.forall_mem_cons.mpr ⟨hfirst, hrest⟩
    exact ⟨bank, hbank, hall region (hregions ▸ hmem)⟩

end MemoryMap

/-- The aggregated machine description. -/
structure BootInfo where
  console : ConsoleSpec
  memory : MemoryMap
  intc : IntcSpec
  timerFreqHz : UInt32
  framebuffer : Option FramebufferInfo
  fwTableAddr : UInt64
  deriving DecidableEq

/-- `BootInfo::qemu_virt_fallback`. -/
def qemuVirtFallback : BootInfo where
  console := { kind := .pl011, regs := ⟨0x09000000, 0x1000⟩, clockHz := 24000000 }
  memory := ⟨[⟨0x40000000, 256 * 1024 * 1024⟩], by decide, by decide⟩
  intc := { kind := .gicV2, primary := ⟨0x08000000, 0x10000⟩, secondary := ⟨0x08010000, 0x10000⟩ }
  timerFreqHz := 0
  framebuffer := none
  fwTableAddr := 0

/-- `BootInfo::qemu_q35_fallback`. -/
def qemuQ35Fallback : BootInfo where
  console := { kind := .ns16550, regs := ⟨0x3f8, 8⟩, clockHz := 1843200 }
  memory := ⟨[⟨0x100000, 128 * 1024 * 1024⟩], by decide, by decide⟩
  intc := { kind := .apic, primary := ⟨0xfee00000, 0x1000⟩, secondary := ⟨0xfec00000, 0x1000⟩ }
  timerFreqHz := 0
  framebuffer := none
  fwTableAddr := 0

end Hyperion.Hal
