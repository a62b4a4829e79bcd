import Hyperion.Efi.Stub
import Hyperion.Hal.UefiHandoff

/-!
# From the stub to the kernel

The block that the stub builds, laid out in memory and read through the kernel's own
declaration of it, is decoded for every memory map and every mode: the codes are
known to the kernel, and the list of regions is not empty, not too long and has no
empty region in it, so that none is dropped.

The framebuffer is another matter.  The stub looks at one bit of the mode only,
whether its format is RGB, and takes every other mode for BGR with four bytes to a
pixel.  That is right for BGR itself and for bit masks that put the colours in that
order and use the fourth byte too.
-/

namespace Hyperion.Efi

open Hyperion.Lib Hyperion.Hal

/-! ## The regions in the block -/

/-- What holds of the list of regions while it is filled. -/
structure EfiHandoff.Listed (handoff : EfiHandoff) : Prop where
  length_memory : handoff.memory.length = maxMemoryRegions
  len_le : handoff.memoryLen.toNat ≤ maxMemoryRegions
  size_ne : ∀ region ∈ handoff.regions, region.size ≠ 0

/-- Only the list of regions differs. -/
def EfiHandoff.Keeps (before after : EfiHandoff) : Prop :=
  after = { before with memory := after.memory, memoryLen := after.memoryLen }

namespace EfiHandoff

variable {handoff before middle after : EfiHandoff} {base size : UInt64}

theorem Keeps.refl (handoff : EfiHandoff) : handoff.Keeps handoff := rfl

theorem Keeps.trans (hfirst : before.Keeps middle) (hsecond : middle.Keeps after) :
    before.Keeps after := by
  unfold Keeps at *
  rw [hsecond, hfirst]

theorem Listed.append (hlisted : handoff.Listed) (hsize : size ≠ 0) :
    Returns (appendRegion handoff base size) fun next =>
      next.Listed ∧ handoff.Keeps next ∧ 0 < next.memoryLen.toNat := by
  obtain ⟨hlength, hlen, hne⟩ := hlisted
  unfold appendRegion
  split
  case isTrue hroom =>
    rw [setIndex_of_lt _ (by omega)]
    have hsucc : (handoff.memoryLen + 1).toNat = handoff.memoryLen.toNat + 1 := by
      rw [UInt32.toNat_add]
      rw [maxMemoryRegions] at hroom
      exact Nat.mod_eq_of_lt (by show handoff.memoryLen.toNat + 1 < 2 ^ 32; omega)
    refine ⟨_, rfl, ⟨?_, ?_, ?_⟩, rfl, ?_⟩
    · simpa using hlength
    · show (handoff.memoryLen + 1).toNat ≤ maxMemoryRegions
      omega
    · intro region hregion
      have hmem : region ∈ (handoff.memory.set handoff.memoryLen.toNat ⟨base, size⟩).take
          (handoff.memoryLen.toNat + 1) := by rw [← hsucc]; exact hregion
      rw [List.take_add_one, List.take_set_of_le (le_refl _),
        List.getElem?_set_self (by omega)] at hmem
      rcases List.mem_append.mp hmem with hold | hnew
      · exact hne region hold
      · rw [List.mem_singleton.mp hnew]
        exact hsize
    · show 0 < (handoff.memoryLen + 1).toNat
      omega
  case isFalse hfull =>
    refine ⟨_, rfl, ⟨hlength, hlen, hne⟩, rfl, ?_⟩
    rw [maxMemoryRegions] at hfull
    omega

theorem Listed.push (hlisted : handoff.Listed) :
    Returns (pushMemoryRegion handoff base size) fun next =>
      next.Listed ∧ handoff.Keeps next ∧ (size ≠ 0 → 0 < next.memoryLen.toNat) := by
  obtain ⟨hlength, hlen, hne⟩ := hlisted
  unfold pushMemoryRegion
  split
  case isTrue hzero => exact ⟨_, rfl, ⟨hlength, hlen, hne⟩, rfl, fun h => absurd hzero h⟩
  case isFalse hsize =>
  have happend : Returns (appendRegion handoff base size) fun next =>
      next.Listed ∧ handoff.Keeps next ∧ (size ≠ 0 → 0 < next.memoryLen.toNat) := by
    apply (Listed.append ⟨hlength, hlen, hne⟩ hsize).mono
    rintro next ⟨hnext, hkeeps, hpos⟩
    exact ⟨hnext, hkeeps, fun _ => hpos⟩
  split
  case isFalse => exact happend
  case isTrue hpos =>
  have hlast : handoff.memoryLen.toNat - 1 < handoff.memory.length := by omega
  rw [index_of_lt hlast]
  show Returns (if _ then _ else _) _
  split
  case isFalse => exact happend
  case isTrue =>
    rw [setIndex_of_lt _ hlast]
    refine ⟨_, rfl, ⟨by simpa using hlength, hlen, ?_⟩, rfl, fun _ => hpos⟩
    intro region hregion
    have hmem : region ∈ (handoff.memory.set (handoff.memoryLen.toNat - 1) _).take
        handoff.memoryLen.toNat := hregion
    rw [List.take_set] at hmem
    rcases List.mem_or_eq_of_mem_set hmem with hold | rfl
    · exact hne region hold
    · -- a region that grew is not empty
      intro hzero
      have hnat := congrArg UInt64.toNat hzero
      have hadd :
          (saturatingAdd (handoff.memory[handoff.memoryLen.toNat - 1]).size size).toNat = 0 :=
        hnat
      rw [toNat_saturatingAdd] at hadd
      have hnonzero : size.toNat ≠ 0 := fun h => hsize (UInt64.toNat_inj.mp h)
      omega

theorem Listed.enter (hlisted : handoff.Listed) (desc : EfiMemoryDescriptor) :
    Returns (enterDescriptor handoff desc) fun next => next.Listed ∧ handoff.Keeps next := by
  unfold enterDescriptor
  split
  · apply hlisted.push.mono
    rintro next ⟨hnext, hkeeps, _⟩
    exact ⟨hnext, hkeeps⟩
  · exact ⟨_, rfl, hlisted, Keeps.refl handoff⟩

end EfiHandoff

/-- A descriptor is not longer than the map it is in. -/
theorem descSize_le (map : MemoryMapSnapshot) (hsize : 0 < map.size) :
    map.descSize ≤ memoryMapBufSize :=
  le_trans (Nat.le_of_dvd hsize map.descSize_dvd) map.size_le

/-- The next descriptor is right behind the one at `off`. -/
theorem saturatingAddUsize_descSize (map : MemoryMapSnapshot) {off : ℕ}
    (hinside : off + descriptorSize ≤ map.size) :
    saturatingAddUsize off map.descSize = off + map.descSize := by
  have hforty : off + 40 ≤ map.size := hinside
  have hle : map.descSize ≤ 64 * 1024 := descSize_le map (by omega)
  have hsize : map.size ≤ 64 * 1024 := map.size_le
  rw [saturatingAddUsize, usizeBound]
  omega

/-- What holds before every turn of the loop over the memory map. -/
structure Filling (start : EfiHandoff) (state : ℕ × EfiHandoff) : Prop where
  off_le : state.1 ≤ 2 * memoryMapBufSize
  listed : state.2.Listed
  keeps : start.Keeps state.2

theorem returns_descriptorTurn (map : MemoryMapSnapshot) {start : EfiHandoff}
    {state : ℕ × EfiHandoff} (hfilling : Filling start state) :
    Returns (descriptorTurn map state)
      (TurnPost (Filling start) (fun state => map.size - state.1)
        (fun handoff => handoff.Listed ∧ start.Keeps handoff) state) := by
  obtain ⟨off, handoff⟩ := state
  obtain ⟨hoff, hlisted, hkeeps⟩ := hfilling
  have hlt : off + descriptorSize < usizeBound := by
    have hle : off ≤ 2 * (64 * 1024) := hoff
    rw [descriptorSize, usizeBound]
    omega
  rw [descriptorTurn, addUsize_of_lt hlt]
  show Returns (if _ then _ else _) _
  split
  case isFalse => exact ⟨_, rfl, hlisted, hkeeps⟩
  case isTrue hinside =>
    have hforty : off + 40 ≤ map.size := hinside
    have hge : 40 ≤ map.descSize := map.descSize_ge
    have hle : map.descSize ≤ 64 * 1024 := descSize_le map (by omega)
    have hsize : map.size ≤ 64 * 1024 := map.size_le
    apply (hlisted.enter (map.descriptor off)).bind
    rintro next ⟨hnextListed, hstep⟩
    apply returns_pure
    rw [saturatingAddUsize_descSize map hinside]
    refine ⟨⟨?_, hnextListed, hkeeps.trans hstep⟩, ?_⟩
    · show off + map.descSize ≤ 2 * (64 * 1024)
      omega
    · show map.size - (off + map.descSize) < map.size - off
      omega

/-- The stub builds a block for every memory map and mode. -/
theorem returns_buildHandoff (arch : Arch) (map : MemoryMapSnapshot) (mode : GopMode)
    (fwTableAddr : UInt64) :
    Returns (buildHandoff arch map mode fwTableAddr) fun handoff =>
      handoff.Listed ∧ (emptyHandoff arch mode fwTableAddr).Keeps handoff ∧
        0 < handoff.memoryLen.toNat := by
  have hempty : (emptyHandoff arch mode fwTableAddr).Listed :=
    ⟨by simp [emptyHandoff], Nat.zero_le _, nofun⟩
  have hloop : Returns (loop (descriptorTurn map) (map.size + 1)
      (0, emptyHandoff arch mode fwTableAddr)) fun handoff =>
        handoff.Listed ∧ (emptyHandoff arch mode fwTableAddr).Keeps handoff :=
    returns_loop (fun state hfilling => returns_descriptorTurn map hfilling) _ _
      ⟨Nat.zero_le _, hempty, EfiHandoff.Keeps.refl _⟩ (Nat.lt_succ_of_le (Nat.sub_le _ _))
  apply hloop.bind
  rintro handoff ⟨hlisted, hkeeps⟩
  split
  case isTrue =>
    apply hlisted.push.mono
    rintro next ⟨hnext, hstep, hpos⟩
    refine ⟨hnext, hkeeps.trans hstep, hpos ?_⟩
    cases arch <;> decide
  case isFalse hlen =>
    refine returns_pure ⟨hlisted, hkeeps, ?_⟩
    apply Nat.pos_of_ne_zero
    intro hzero
    exact hlen (UInt32.toNat_inj.mp hzero)

/-! ## The block in memory -/

def HandoffMemoryRegion.toRegion (region : HandoffMemoryRegion) : MemoryRegion :=
  ⟨region.base, region.size⟩

/-- The block with the kernel's names. -/
def EfiHandoff.view (handoff : EfiHandoff) : UefiHandoff where
  magic := handoff.magic
  version := handoff.version
  reserved0 := handoff.reserved0
  consoleKind := handoff.consoleKind
  consoleBase := handoff.consoleBase
  consoleSize := handoff.consoleSize
  consoleClockHz := handoff.consoleClockHz
  intcKind := handoff.intcKind
  intcPrimaryBase := handoff.intcPrimaryBase
  intcPrimarySize := handoff.intcPrimarySize
  intcSecondaryBase := handoff.intcSecondaryBase
  intcSecondarySize := handoff.intcSecondarySize
  timerFreqHz := handoff.timerFreqHz
  memoryLen := handoff.memoryLen
  memory := handoff.memory.map HandoffMemoryRegion.toRegion
  framebufferPresent := handoff.framebufferPresent
  framebufferBase := handoff.framebufferBase
  framebufferSize := handoff.framebufferSize
  framebufferWidth := handoff.framebufferWidth
  framebufferHeight := handoff.framebufferHeight
  framebufferStrideBytes := handoff.framebufferStrideBytes
  framebufferBpp := handoff.framebufferBpp
  framebufferFormat := handoff.framebufferFormat
  fwTableAddr := handoff.fwTableAddr

/-- The values of the fields of some regions. -/
def regionValues (regions : List HandoffMemoryRegion) : List ℕ :=
  regions.flatMap fun region => [region.base.toNat, region.size.toNat]

theorem length_regionValues (regions : List HandoffMemoryRegion) :
    (regionValues regions).length = 2 * regions.length := by
  induction regions with
  | nil => rfl
  | cons region regions ih =>
    rw [regionValues, List.flatMap_cons, List.length_append]
    rw [regionValues] at ih
    rw [ih, List.length_cons]
    show 2 + 2 * regions.length = 2 * (regions.length + 1)
    omega

theorem regionsOf_regionValues (regions : List HandoffMemoryRegion) :
    UefiHandoff.regionsOf (regionValues regions) = regions.map HandoffMemoryRegion.toRegion := by
  induction regions with
  | nil => rfl
  | cons region regions ih =>
    show _ :: UefiHandoff.regionsOf (regionValues regions) = _
    rw [ih, UInt64.ofNat_toNat, UInt64.ofNat_toNat]
    rfl

variable {handoff : EfiHandoff}

section

variable (hlength : handoff.memory.length = maxMemoryRegions)

include hlength

/-- The two declarations agree. -/
theorem widths_eq :
    handoff.fields.map ReprC.Field.width = UefiHandoff.widths := by
  have hregions : ∀ regions : List HandoffMemoryRegion,
      (regions.flatMap fun region => [ReprC.u64 region.base, ReprC.u64 region.size]).map
        ReprC.Field.width = List.replicate (2 * regions.length) 8 := by
    intro regions
    induction regions with
    | nil => rfl
    | cons region regions ih =>
      rw [List.flatMap_cons, List.map_append, ih, List.length_cons, Nat.mul_succ,
        Nat.add_comm, List.replicate_add]
      rfl
  rw [EfiHandoff.fields, List.map_append, List.map_append, hregions, hlength]
  rfl

theorem ofValues_fields :
    UefiHandoff.ofValues (handoff.fields.map ReprC.Field.value) = some handoff.view := by
  have hmiddle : (regionValues handoff.memory).length = 2 * Hal.maxMemoryRegions := by
    rw [length_regionValues, hlength]
    rfl
  have hvalues : (handoff.memory.flatMap fun region =>
      [ReprC.u64 region.base, ReprC.u64 region.size]).map ReprC.Field.value =
        regionValues handoff.memory := by
    rw [List.map_flatMap]
    rfl
  rw [EfiHandoff.fields, List.map_append, List.map_append, hvalues, List.append_assoc,
    UefiHandoff.ofValues, ← List.drop_drop, List.take_left' (by rfl), List.drop_left' (by rfl),
    List.take_left' hmiddle, List.drop_left' hmiddle, regionsOf_regionValues]
  simp [ReprC.u32, ReprC.u64, EfiHandoff.view]

/-- The kernel reads the block that the stub laid out. -/
theorem readAt_bytes {pad : ℕ → UInt8} {mem : Memory} {addr : ℕ}
    (hholds : mem.Holds addr (handoff.bytes pad)) :
    UefiHandoff.readAt mem addr = some handoff.view := by
  rw [UefiHandoff.readAt, ← widths_eq hlength, ReprC.decode_encode handoff.fields 0 hholds,
    ofValues_fields hlength]

end

/-! ## What the kernel gets -/

/-- The console that the stub has in mind for an architecture. -/
def Arch.consoleKind : Arch → ConsoleKind
  | .aarch64 => .pl011
  | .x86_64 => .ns16550

/-- The interrupt controller that the stub has in mind for an architecture. -/
def Arch.intcKind : Arch → IntcKind
  | .aarch64 => .gicV2
  | .x86_64 => .apic

/-- The order of the colours that the code of the stub stands for. -/
def stubFormat (mode : GopMode) : PixelFormat :=
  if mode.pixelFormat = pixelRedGreenBlueReserved8BitPerColor then .rgba8888 else .bgra8888

theorem pixelFormatOf_framebufferFormat (mode : GopMode) :
    UefiHandoff.pixelFormatOf (framebufferFormat mode) = some (stubFormat mode) := by
  unfold framebufferFormat stubFormat
  split <;> rfl

/-- No region of the block is dropped. -/
theorem regions_view (hlisted : handoff.Listed) :
    (MemoryMap.empty.pushAll (handoff.view.memory.take
      (min handoff.view.memoryLen.toNat Hal.maxMemoryRegions))).regions =
        handoff.regions.map HandoffMemoryRegion.toRegion := by
  have hlen : min handoff.view.memoryLen.toNat Hal.maxMemoryRegions = handoff.memoryLen.toNat :=
    Nat.min_eq_left hlisted.len_le
  have hregions : handoff.view.memory.take handoff.memoryLen.toNat =
      handoff.regions.map HandoffMemoryRegion.toRegion := by
    rw [EfiHandoff.regions, List.map_take]
    rfl
  rw [hlen, hregions, MemoryMap.regions_pushAll]
  · apply List.take_of_length_le
    show (handoff.regions.map _).length ≤ _
    rw [List.length_map, EfiHandoff.regions, List.length_take]
    exact le_trans (Nat.min_le_left _ _) hlisted.len_le
  · intro region hregion
    obtain ⟨listed, hmem, rfl⟩ := List.mem_map.mp hregion
    exact UInt64.pos_iff_ne_zero.mpr (hlisted.size_ne listed hmem)

/-- The kernel's description of the machine, for a block built by the stub. -/
theorem toBootInfo_view {arch : Arch} {mode : GopMode} {fwTableAddr : UInt64}
    (hlisted : handoff.Listed) (hkeeps : (emptyHandoff arch mode fwTableAddr).Keeps handoff) :
    ∃ info, handoff.view.toBootInfo = some info ∧
      info.console = ⟨arch.consoleKind, ⟨handoff.consoleBase, handoff.consoleSize⟩,
        handoff.consoleClockHz⟩ ∧
      info.intc = ⟨arch.intcKind, ⟨handoff.intcPrimaryBase, handoff.intcPrimarySize⟩,
        ⟨handoff.intcSecondaryBase, handoff.intcSecondarySize⟩⟩ ∧
      info.memory.regions = handoff.regions.map HandoffMemoryRegion.toRegion ∧
      info.fwTableAddr = fwTableAddr ∧
      info.framebuffer = some
        { base := mode.framebufferBase
          width := mode.horizontalResolution
          height := mode.verticalResolution
          strideBytes := saturatingMul32 mode.pixelsPerScanLine 4
          bpp := 32
          format := stubFormat mode } := by
  have hmemory := regions_view hlisted
  have hformat := pixelFormatOf_framebufferFormat mode
  -- apart from its regions, the block is known
  rw [EfiHandoff.Keeps] at hkeeps
  generalize handoff.memory = memory, handoff.memoryLen = memoryLen at hkeeps
  subst hkeeps
  have hconsole : UefiHandoff.consoleKindOf (emptyHandoff arch mode fwTableAddr).consoleKind =
      some arch.consoleKind := by cases arch <;> rfl
  have hintc : UefiHandoff.intcKindOf (emptyHandoff arch mode fwTableAddr).intcKind =
      some arch.intcKind := by cases arch <;> rfl
  have hpresent : (emptyHandoff arch mode fwTableAddr).framebufferPresent ≠ 0 :=
    show (1 : UInt32) ≠ 0 by decide
  exact ⟨_, UefiHandoff.toBootInfo_of_known rfl rfl hconsole hintc hpresent hformat, rfl, rfl,
    hmemory, rfl, rfl⟩

/-! ## The framebuffer -/

/-- The order of the colours in the framebuffer, as the firmware means it. -/
def GopMode.pixelOrder (mode : GopMode) : Option PixelFormat :=
  if mode.pixelFormat = pixelRedGreenBlueReserved8BitPerColor then some .rgba8888
  else if mode.pixelFormat = pixelBlueGreenRedReserved8BitPerColor then some .bgra8888
  else if mode.pixelFormat = pixelBitMask then
    if mode.pixelInformation.red = 0xff ∧ mode.pixelInformation.green = 0xff00 ∧
        mode.pixelInformation.blue = 0xff0000 then some .rgba8888
    else if mode.pixelInformation.red = 0xff0000 ∧ mode.pixelInformation.green = 0xff00 ∧
        mode.pixelInformation.blue = 0xff then some .bgra8888
    else none
  else none

/-- All bits of a pixel, the reserved ones included. -/
def EfiPixelBitmask.bits (mask : EfiPixelBitmask) : UInt32 :=
  mask.red ||| mask.green ||| mask.blue ||| mask.reserved

/-- The bytes of a pixel.  In a bit-mask mode they reach up to its highest bit. -/
def GopMode.bytesPerPixel (mode : GopMode) : ℕ :=
  if mode.pixelFormat = pixelBitMask then Nat.log2 mode.pixelInformation.bits.toNat / 8 + 1 else 4

/-- The kernel's description of the framebuffer is right. -/
structure GopMode.ShownBy (mode : GopMode) (fb : FramebufferInfo) : Prop where
  base : fb.base = mode.framebufferBase
  width : fb.width = mode.horizontalResolution
  height : fb.height = mode.verticalResolution
  stride : fb.strideBytes.toNat = mode.pixelsPerScanLine.toNat * mode.bytesPerPixel
  depth : fb.bpp.toNat = 8 * mode.bytesPerPixel
  order : mode.pixelOrder = some fb.format

/-- A mode whose scan line fits, with pixels of 32 bits and the colours in an order that the
stub gets right. -/
def GopMode.Plain (mode : GopMode) : Prop :=
  mode.pixelsPerScanLine.toNat < 2 ^ 30 ∧
    (mode.pixelFormat = pixelRedGreenBlueReserved8BitPerColor ∨
      mode.pixelFormat = pixelBlueGreenRedReserved8BitPerColor ∨
      mode.pixelFormat = pixelBitMask ∧ mode.pixelInformation.red = 0xff0000 ∧
        mode.pixelInformation.green = 0xff00 ∧ mode.pixelInformation.blue = 0xff ∧
        0x1000000 ≤ mode.pixelInformation.reserved)

theorem toNat_saturatingMul32_four (n : UInt32) :
    (saturatingMul32 n 4).toNat = n.toNat * 4 ↔ n.toNat < 2 ^ 30 := by
  have hfour : (4 : UInt32).toNat = 4 := rfl
  unfold saturatingMul32
  rw [hfour]
  split
  case isTrue hfits =>
    rw [UInt32.toNat_mul, hfour, Nat.mod_eq_of_lt hfits]
    exact iff_of_true rfl (by omega)
  case isFalse hwraps =>
    apply iff_of_false
    · show 2 ^ 32 - 1 ≠ _
      omega
    · omega

/-- The stub is right about the order exactly for these formats. -/
theorem pixelOrder_eq_stubFormat (mode : GopMode) :
    mode.pixelOrder = some (stubFormat mode) ↔
      mode.pixelFormat = pixelRedGreenBlueReserved8BitPerColor ∨
      mode.pixelFormat = pixelBlueGreenRedReserved8BitPerColor ∨
      mode.pixelFormat = pixelBitMask ∧ mode.pixelInformation.red = 0xff0000 ∧
        mode.pixelInformation.green = 0xff00 ∧ mode.pixelInformation.blue = 0xff := by
  unfold GopMode.pixelOrder stubFormat
  by_cases hrgb : mode.pixelFormat = pixelRedGreenBlueReserved8BitPerColor
  · simp [hrgb]
  by_cases hbgr : mode.pixelFormat = pixelBlueGreenRedReserved8BitPerColor
  · simp [hbgr, pixelRedGreenBlueReserved8BitPerColor, pixelBlueGreenRedReserved8BitPerColor]
  by_cases hmask : mode.pixelFormat = pixelBitMask
  · rw [if_neg hrgb, if_neg hbgr, if_pos hmask, if_neg hrgb, or_iff_right hrgb,
      or_iff_right hbgr, and_iff_right hmask]
    split
    case isTrue hmasks =>
      apply iff_of_false
      · simp
      · rintro ⟨hred, _⟩
        exact absurd (hmasks.1.symm.trans hred) (by decide)
    case isFalse =>
      split
      case isTrue hmasks => exact iff_of_true rfl hmasks
      case isFalse hmasks => exact iff_of_false (by simp) hmasks
  · simp [hrgb, hbgr, hmask]

/-- With one byte for each colour, the reserved bits decide whether there is a fourth one. -/
theorem bytesPerPixel_of_masks {mode : GopMode} (hmask : mode.pixelFormat = pixelBitMask)
    (hred : mode.pixelInformation.red = 0xff0000) (hgreen : mode.pixelInformation.green = 0xff00)
    (hblue : mode.pixelInformation.blue = 0xff) :
    mode.bytesPerPixel = 4 ↔ 0x1000000 ≤ mode.pixelInformation.reserved := by
  have hbits : mode.pixelInformation.bits.toNat =
      0xffffff ||| mode.pixelInformation.reserved.toNat := by
    rw [EfiPixelBitmask.bits, hred, hgreen, hblue, UInt32.toNat_or]
    rfl
  have hlt := mode.pixelInformation.bits.toNat_lt
  have hcolours : 0xffffff ≤ mode.pixelInformation.bits.toNat := hbits ▸ Nat.left_le_or
  have hreserved : mode.pixelInformation.reserved.toNat ≤ mode.pixelInformation.bits.toNat :=
    hbits ▸ Nat.right_le_or
  have hlow : mode.pixelInformation.reserved.toNat < 2 ^ 24 →
      mode.pixelInformation.bits.toNat < 2 ^ 24 := by
    intro hsmall
    rw [hbits]
    exact Nat.or_lt_two_pow (by decide) hsmall
  have htop := (Nat.log2_lt (by omega)).mpr hlt
  have hfourth := Nat.le_log2 (k := 24) (show mode.pixelInformation.bits.toNat ≠ 0 by omega)
  have hword : (0x1000000 : UInt32).toNat = 2 ^ 24 := rfl
  rw [GopMode.bytesPerPixel, if_pos hmask, UInt32.le_iff_toNat_le, hword]
  omega

/-- What the stub publishes is right exactly for plain modes. -/
theorem plain_iff (mode : GopMode) :
    mode.Plain ↔ (saturatingMul32 mode.pixelsPerScanLine 4).toNat =
        mode.pixelsPerScanLine.toNat * 4 ∧
      mode.bytesPerPixel = 4 ∧ mode.pixelOrder = some (stubFormat mode) := by
  rw [GopMode.Plain, toNat_saturatingMul32_four, pixelOrder_eq_stubFormat]
  refine and_congr_right fun _ => ⟨?_, ?_⟩
  · rintro (hrgb | hbgr | ⟨hmask, hred, hgreen, hblue, hreserved⟩)
    · exact ⟨by rw [GopMode.bytesPerPixel, hrgb]; rfl, .inl hrgb⟩
    · exact ⟨by rw [GopMode.bytesPerPixel, hbgr]; rfl, .inr (.inl hbgr)⟩
    · exact ⟨(bytesPerPixel_of_masks hmask hred hgreen hblue).mpr hreserved,
        Or.inr (.inr ⟨hmask, hred, hgreen, hblue⟩)⟩
  · rintro ⟨hbytes, hrgb | hbgr | ⟨hmask, hred, hgreen, hblue⟩⟩
    · exact .inl hrgb
    · exact .inr (.inl hbgr)
    · exact .inr (.inr ⟨hmask, hred, hgreen, hblue,
        (bytesPerPixel_of_masks hmask hred hgreen hblue).mp hbytes⟩)

/-- **What arrives in the kernel.**  For every architecture, memory map, mode and table,
the stub builds a block, and wherever it is laid out, the kernel decodes it to the
stub's console, interrupt controller, regions and table.  Its description of the
framebuffer is right exactly for plain modes. -/
theorem handoff_arrives (arch : Arch) (map : MemoryMapSnapshot) (mode : GopMode)
    (fwTableAddr : UInt64) :
    ∃ handoff, buildHandoff arch map mode fwTableAddr = .ok handoff ∧
      1 ≤ handoff.regions.length ∧ handoff.regions.length ≤ maxMemoryRegions ∧
      ∀ (pad : ℕ → UInt8) (mem : Memory) (addr : ℕ), mem.Holds addr (handoff.bytes pad) →
        ∃ info, (UefiHandoff.readAt mem addr).bind UefiHandoff.toBootInfo = some info ∧
          info.console = ⟨arch.consoleKind, ⟨handoff.consoleBase, handoff.consoleSize⟩,
            handoff.consoleClockHz⟩ ∧
          info.intc = ⟨arch.intcKind, ⟨handoff.intcPrimaryBase, handoff.intcPrimarySize⟩,
            ⟨handoff.intcSecondaryBase, handoff.intcSecondarySize⟩⟩ ∧
          info.memory.regions = handoff.regions.map HandoffMemoryRegion.toRegion ∧
          info.fwTableAddr = fwTableAddr ∧
          ((∃ fb, info.framebuffer = some fb ∧ mode.ShownBy fb) ↔ mode.Plain) := by
  obtain ⟨handoff, hbuild, hlisted, hkeeps, hpos⟩ :=
    returns_buildHandoff arch map mode fwTableAddr
  have hlength : handoff.regions.length = handoff.memoryLen.toNat := by
    rw [EfiHandoff.regions, List.length_take, hlisted.length_memory]
    exact Nat.min_eq_left hlisted.len_le
  have hle := hlisted.len_le
  refine ⟨handoff, hbuild, by omega, by omega, ?_⟩
  intro pad mem addr hholds
  obtain ⟨info, hinfo, hconsole, hintc, hmemory, htable, hfb⟩ := toBootInfo_view hlisted hkeeps
  refine ⟨info, ?_, hconsole, hintc, hmemory, htable, ?_⟩
  · rw [readAt_bytes hlisted.length_memory hholds]
    exact hinfo
  · rw [plain_iff]
    constructor
    · rintro ⟨fb, hsome, hshown⟩
      rw [hfb] at hsome
      cases hsome
      have hdepth : 32 = 8 * mode.bytesPerPixel := hshown.depth
      have hbytes : mode.bytesPerPixel = 4 := by omega
      exact ⟨hbytes ▸ hshown.stride, hbytes, hshown.order⟩
    · rintro ⟨hstride, hbytes, horder⟩
      exact ⟨_, hfb, rfl, rfl, rfl, hbytes.symm ▸ hstride, by rw [hbytes]; rfl, horder⟩

/-- A memory map of conventional memory, given by start and number of pages. -/
def snapshotOf (list : List (ℕ × ℕ)) (hle : list.length * 40 ≤ memoryMapBufSize) :
    MemoryMapSnapshot where
  bytes off :=
    let desc := list.getD (off / 40) (0, 0)
    let field := off % 40
    if field = 0 then 7
    else if 8 ≤ field ∧ field < 16 then UInt8.ofNat (desc.1 / 256 ^ (field - 8))
    else if 24 ≤ field ∧ field < 32 then UInt8.ofNat (desc.2 / 256 ^ (field - 24))
    else 0
  size := list.length * 40
  descSize := 40
  size_le := hle
  descSize_dvd := Nat.dvd_mul_left 40 list.length
  descSize_ge := by decide

/-- Two single pages and then a bank of 255 pages. -/
def bankThird : MemoryMapSnapshot :=
  snapshotOf [(0x10000, 1), (0x20000, 1), (0x30000, 255)] (by decide)

def bgrMode : GopMode := ⟨800, 600, 1, ⟨0, 0, 0, 0⟩, 832, 0x80000000, 0x1e7800⟩

theorem handoff_arrives_bgr :
    ∃ handoff, buildHandoff .aarch64 bankThird bgrMode 0 = .ok handoff ∧
      ∃ info, (UefiHandoff.readAt (.ofBytes 0x1000 (handoff.bytes fun _ => 0xaa)) 0x1000).bind
          UefiHandoff.toBootInfo = some info ∧
        info.memory.regions = [⟨0x10000, 0x1000⟩, ⟨0x20000, 0x1000⟩, ⟨0x30000, 0xff000⟩] ∧
        ∃ fb, info.framebuffer = some fb ∧ bgrMode.ShownBy fb := by
  obtain ⟨handoff, hbuild, _, _, harrives⟩ := handoff_arrives .aarch64 bankThird bgrMode 0
  obtain ⟨info, hinfo, _, _, hmemory, _, hfb⟩ := harrives _ _ 0x1000 (Memory.holds_ofBytes _ _)
  have hregions : (buildHandoff .aarch64 bankThird bgrMode 0).toOption.map EfiHandoff.regions =
      some [⟨0x10000, 0x1000⟩, ⟨0x20000, 0x1000⟩, ⟨0x30000, 0xff000⟩] := by
    decide +kernel
  rw [hbuild] at hregions
  rw [Option.some.inj hregions] at hmemory
  exact ⟨handoff, hbuild, info, hinfo, hmemory, hfb.mpr ⟨by decide, .inr (.inl rfl)⟩⟩

/-- A mode with a bit mask that puts red first. -/
def redFirstMode : GopMode :=
  ⟨800, 600, pixelBitMask, ⟨0xff, 0xff00, 0xff0000, 0xff000000⟩, 800, 0x80000000, 0x1d4c00⟩

/-- The kernel takes it for a framebuffer with blue first. -/
theorem redFirst_misread :
    redFirstMode.pixelOrder = some .rgba8888 ∧
      (do
        let handoff ← (buildHandoff .x86_64 bankThird redFirstMode 0).toOption
        let read ← UefiHandoff.readAt (.ofBytes 0x1000 (handoff.bytes fun _ => 0)) 0x1000
        let info ← read.toBootInfo
        let fb ← info.framebuffer
        pure fb.format) = some PixelFormat.bgra8888 := by
  decide +kernel

end Hyperion.Efi
