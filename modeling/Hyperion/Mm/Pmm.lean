import Hyperion.Hal.BootInfo
import Hyperion.Lib.Transition
import Hyperion.Lib.Word

/-!
# The physical frame allocator

`mm/pmm.rs`: a bitmap with one bit for each 4 KiB frame of the largest RAM bank,
a hint where the next search starts, and a free-frame counter kept beside the
bitmap.  Addresses are 64-bit words with wrapping arithmetic, as in a release
build; frame numbers and counts never leave `0 … MAX_FRAMES` and are natural
numbers.
-/

namespace Hyperion.Mm.Pmm

open Hyperion.Lib Hyperion.Hal

/-- `PAGE_SIZE`. -/
def pageSize : ℕ := 4096

/-- `MAX_MANAGED_BYTES`: 256 MiB. -/
def maxManagedBytes : ℕ := 256 * 1024 * 1024

/-- `MAX_FRAMES`. -/
def maxFrames : ℕ := maxManagedBytes / pageSize

/-- `BITMAP_WORDS`. -/
def bitmapWords : ℕ := maxFrames / 64

/-- The allocator behind its mutex. -/
structure PmmInner where
  bitmap : Bitmap bitmapWords
  base : UInt64
  numFrames : ℕ
  nextHint : ℕ
  /-- "Always <= MAX_FRAMES". -/
  numFrames_le : numFrames ≤ maxFrames

/-- The statics of the module: the allocator and its two counters. -/
structure State extends PmmInner where
  freeFrames : UInt64
  totalBytes : UInt64

/-- A pool of `numFrames` free frames starting at `base`. -/
def State.fresh (base : UInt64) (numFrames : ℕ) (hle : numFrames ≤ maxFrames) : State where
  bitmap := Vector.replicate _ 0
  base := base
  numFrames := numFrames
  nextHint := 0
  numFrames_le := hle
  freeFrames := UInt64.ofNat numFrames
  totalBytes := UInt64.ofNat (numFrames * pageSize)

/-- The statics before `init`. -/
def State.new : State := State.fresh 0 0 (Nat.zero_le _)

/-- The end of a bank, `bank.base.saturating_add(bank.size)`. -/
def bankEnd (bank : MemoryRegion) : UInt64 :=
  saturatingAdd bank.base bank.size

/-- Where `init` starts the pool: the first page boundary from `__kernel_end` on
if that lies inside the bank, else from the start of the bank. -/
def poolBase (bank : MemoryRegion) (kernelEnd : UInt64) : UInt64 :=
  let rawBase := if bank.base ≤ kernelEnd ∧ kernelEnd < bankEnd bank then kernelEnd else bank.base
  (rawBase + 4096 - 1) &&& ~~~(4096 - 1)

/-- How many frames `init` manages. -/
def poolFrames (bank : MemoryRegion) (kernelEnd : UInt64) : ℕ :=
  let usableBytes :=
    min (saturatingSub (bankEnd bank) (poolBase bank kernelEnd)).toNat maxManagedBytes
  min (usableBytes / pageSize) maxFrames

/-- `init`, given the published memory map and the address of `__kernel_end`. -/
def init (memory : MemoryMap) (kernelEnd : UInt64) (s : State) : State :=
  match memory.largest with
  | none => s
  | some bank =>
    State.fresh (poolBase bank kernelEnd) (poolFrames bank kernelEnd) (min_le_right _ _)

/-- The physical address of frame `idx`. -/
def PmmInner.frameAddr (pmm : PmmInner) (idx : ℕ) : UInt64 :=
  pmm.base + UInt64.ofNat (idx * pageSize)

/-- The circular scan of `alloc_frame`: the first clear index among
`(next_hint + i) % num_frames`, for `i` from `0` to `num_frames - 1`. -/
def PmmInner.scan (pmm : PmmInner) : Option ℕ :=
  ((List.range pmm.numFrames).map fun i => (pmm.nextHint + i) % pmm.numFrames).find?
    fun idx => !pmm.bitmap.isSet idx

/-- `alloc_frame`. -/
def allocFrame (s : State) : Option UInt64 × State :=
  if s.numFrames = 0 then (none, s)
  else
    match s.scan with
    | none => (none, s)
    | some idx =>
      (some (s.frameAddr idx),
        { s with
          bitmap := s.bitmap.set idx
          nextHint := (idx + 1) % s.numFrames
          freeFrames := s.freeFrames - 1 })

/-- `free_frame`. -/
def freeFrame (s : State) (addr : UInt64) : State :=
  if addr < s.base then s
  else
    let off := (addr - s.base).toNat
    if off % pageSize ≠ 0 then s
    else
      let idx := off / pageSize
      if s.numFrames ≤ idx then s
      else if !s.bitmap.isSet idx then s
      else
        { s with
          bitmap := s.bitmap.clear idx
          freeFrames := s.freeFrames + 1 }

/-! ## The allocator as a transition system -/

/-- One call with what it answered. -/
inductive Event where
  | alloc (answer : Option UInt64)
  | free (addr : UInt64)
  deriving DecidableEq, Repr

/-- A call of `alloc_frame` or `free_frame`, under the mutex. -/
inductive Step : State → Event → State → Prop
  | alloc (s : State) : Step s (.alloc (allocFrame s).1) (allocFrame s).2
  | free (s : State) (addr : UInt64) : Step s (.free addr) (freeFrame s addr)

end Hyperion.Mm.Pmm
