import Hyperion.Hal.BootInfo
import Hyperion.Lib.Memory
import Hyperion.Lib.Traced

/-!
# The Multiboot2 parser

`hal/multiboot.rs`.  The parser reads the information block through raw pointers,
so nothing stops a read outside the block; every read is an event of the
computation here.  Additions on addresses fault when they pass `2^64`; what is
proved is about blocks that are far enough below, where a release build, which
wraps, computes the same.  The lengths that `total_bytes` adds up are any numbers,
and their sum wraps, as in a release build.

A structure that the source looks at through a reference is read field by field,
where the source uses the field.
-/

namespace Hyperion.Hal

open Hyperion.Lib

/-- `MemoryMap::total_bytes`. -/
def MemoryMap.totalBytes (memory : MemoryMap) : UInt64 :=
  memory.regions.foldl (fun sum region => sum + region.size) 0

namespace Multiboot

def mb2Magic : UInt64 := 0x36d76289

def tagEnd : UInt32 := 0
def tagBasicMemInfo : UInt32 := 4
def tagMemoryMap : UInt32 := 6
def tagFramebufferInfo : UInt32 := 8
def tagEfi64Systab : UInt32 := 12
def tagRsdpOld : UInt32 := 14
def tagRsdpNew : UInt32 := 15

def memTypeAvailable : UInt32 := 1

/-- `size_of::<FbTag>()`. -/
def fbTagSize : ℕ := 32

/-! ## Reads -/

/-- `width` bytes at `addr`. -/
structure Read where
  addr : ℕ
  width : ℕ
  deriving DecidableEq, Repr

abbrev Scan (α : Type) := Traced Read α

@[irreducible] def u8At (mem : Memory) (addr : ℕ) : UInt8 := UInt8.ofNat (mem.load addr 1)

@[irreducible] def u32At (mem : Memory) (addr : ℕ) : UInt32 := UInt32.ofNat (mem.load addr 4)

@[irreducible] def u64At (mem : Memory) (addr : ℕ) : UInt64 := UInt64.ofNat (mem.load addr 8)

def readU8 (mem : Memory) (addr : ℕ) : Scan UInt8 := Traced.emit ⟨addr, 1⟩ (u8At mem addr)

def readU32 (mem : Memory) (addr : ℕ) : Scan UInt32 := Traced.emit ⟨addr, 4⟩ (u32At mem addr)

def readU64 (mem : Memory) (addr : ℕ) : Scan UInt64 := Traced.emit ⟨addr, 8⟩ (u64At mem addr)

/-! ## Tags -/

/-- One entry of a memory map, pushed if it is available and not empty. -/
def scanEntry (mem : Memory) (p : ℕ) (map : MemoryMap) : Scan MemoryMap := do
  let typ ← readU32 mem (p + 16)
  if typ = memTypeAvailable then
    let length ← readU64 mem (p + 8)
    if length ≠ 0 then
      let baseAddr ← readU64 mem p
      pure (map.push ⟨baseAddr, length⟩)
    else pure map
  else pure map

/-- One turn of the loop over the entries. -/
def entryTurn (mem : Memory) (entrySize entriesEnd : ℕ) :
    ℕ × MemoryMap → Scan (Turn (ℕ × MemoryMap) MemoryMap)
  | (p, map) => do
      let next ← addUsize p entrySize
      if next ≤ entriesEnd ∧ entrySize ≠ 0 then
        let map ← scanEntry mem p map
        pure (.again (next, map))
      else pure (.leave map)

/-- The map of a memory-map tag at `cur`. -/
def scanMemoryMap (mem : Memory) (cur : ℕ) (size : UInt32) : Scan MemoryMap := do
  let body ← addUsize cur 8
  let entrySize ← readU32 mem body
  let entriesStart ← addUsize body 8
  let entriesEnd ← addUsize cur size.toNat
  Traced.loop (entryTurn mem entrySize.toNat entriesEnd) (size.toNat + 1)
    (entriesStart, MemoryMap.empty)

/-- The map of a basic-meminfo tag at `cur`; both numbers are in KiB. -/
def scanBasicMemInfo (mem : Memory) (cur : ℕ) : Scan MemoryMap := do
  let body ← addUsize cur 8
  let memLower ← readU32 mem body
  let second ← addUsize body 4
  let memUpper ← readU32 mem second
  let map := MemoryMap.empty
  let map := if memLower ≠ 0 then map.push ⟨0, memLower.toUInt64 * 1024⟩ else map
  let map := if memUpper ≠ 0 then map.push ⟨0x100000, memUpper.toUInt64 * 1024⟩ else map
  pure map

/-- The framebuffer of a tag at `cur`, if it is direct RGB with 32 bits per pixel. -/
def scanFramebuffer (mem : Memory) (cur : ℕ) : Scan (Option FramebufferInfo) := do
  let fbType ← readU8 mem (cur + 29)
  if fbType = 1 then
    let bpp ← readU8 mem (cur + 28)
    if bpp = 32 then
      let rgb ← addUsize cur fbTagSize
      let redFieldPosition ← readU8 mem rgb
      let format := if 16 ≤ redFieldPosition then PixelFormat.bgra8888 else .rgba8888
      let addr ← readU64 mem (cur + 8)
      let width ← readU32 mem (cur + 20)
      let height ← readU32 mem (cur + 24)
      let pitch ← readU32 mem (cur + 16)
      pure (some
        { base := addr, width, height, strideBytes := pitch, bpp := bpp.toUInt32, format })
    else pure none
  else pure none

/-- The local variables of `parse_or_fallback` that the loop changes, `cur` apart. -/
structure State where
  info : BootInfo
  haveRealMemory : Bool

/-- The `match` on the type of a tag. -/
def handleTag (mem : Memory) (mbiPtr : UInt64) (cur : ℕ) (typ size : UInt32) (st : State) :
    Scan State :=
  if typ = tagMemoryMap then do
    let map ← scanMemoryMap mem cur size
    if map.totalBytes ≠ 0 then pure ⟨{ st.info with memory := map }, true⟩ else pure st
  else if typ = tagBasicMemInfo then
    if st.haveRealMemory then pure st
    else do
      let map ← scanBasicMemInfo mem cur
      if map.totalBytes ≠ 0 then pure { st with info.memory := map } else pure st
  else if typ = tagFramebufferInfo then
    if fbTagSize ≤ size.toNat then do
      match ← scanFramebuffer mem cur with
      | some fb => pure { st with info.framebuffer := some fb }
      | none => pure st
    else pure st
  else if typ = tagRsdpOld ∨ typ = tagRsdpNew then do
    let body ← addUsize cur 8
    pure { st with info.fwTableAddr := UInt64.ofNat body }
  else if typ = tagEfi64Systab then
    if st.info.fwTableAddr = mbiPtr then do
      let body ← addUsize cur 8
      let systab ← readU64 mem body
      pure { st with info.fwTableAddr := systab }
    else pure st
  else pure st

/-- `(size + 7) & !7`. -/
def paddedSize (size : UInt32) : ℕ := Nat.ldiff (size.toNat + 7) 7

/-- One turn of the loop over the tags. -/
def tagTurn (mem : Memory) (mbiPtr : UInt64) (stop : ℕ) : ℕ × State → Scan (Turn (ℕ × State) State)
  | (cur, st) => do
      let body ← addUsize cur 8
      if body ≤ stop then
        let typ ← readU32 mem cur
        if typ = tagEnd then pure (.leave st)
        else
          let size ← readU32 mem (cur + 4)
          if size < 8 then pure (.leave st)
          else
            let st ← handleTag mem mbiPtr cur typ size st
            let cur ← addUsize cur (paddedSize size)
            pure (.again (cur, st))
      else pure (.leave st)

/-! ## The parser -/

/-- The description before any tag is read. -/
def initialInfo (mbiPtr : UInt64) : BootInfo :=
  { qemuQ35Fallback with
    fwTableAddr := mbiPtr
    intc := { kind := .apic, primary := ⟨0xfee00000, 0x1000⟩, secondary := ⟨0xfec00000, 0x1000⟩ } }

/-- The last statement of the parser: the PC console in place of an Arm one. -/
def overrideConsole (info : BootInfo) : BootInfo :=
  if info.console.kind = .pl011 ∨ info.console.kind = .bcmMiniUart then
    { info with console := { kind := .ns16550, regs := ⟨0x3f8, 8⟩, clockHz := 1843200 } }
  else info

/-- `parse_or_fallback`.  Each turn of the loop over the tags advances by eight bytes
or more, so `total_size` turns are enough. -/
def parseOrFallback (mem : Memory) (mbiPtr magic : UInt64) : Scan BootInfo :=
  if magic ≠ mb2Magic ∨ mbiPtr = 0 then pure (initialInfo mbiPtr)
  else do
    let totalSize ← readU32 mem mbiPtr.toNat
    if 16 ≤ totalSize ∧ totalSize ≤ 16 * 1024 * 1024 then
      let stop := saturatingAddUsize mbiPtr.toNat totalSize.toNat
      let cur ← addUsize mbiPtr.toNat 8
      let st ← Traced.loop (tagTurn mem mbiPtr stop) totalSize.toNat
        (cur, ⟨initialInfo mbiPtr, false⟩)
      pure (overrideConsole st.info)
    else pure (initialInfo mbiPtr)

end Multiboot

end Hyperion.Hal
