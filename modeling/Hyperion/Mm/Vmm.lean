import Hyperion.Lib.OrdMap
import Hyperion.Mm.Pmm

/-!
# Address spaces

`mm/vmm.rs`: an address space is a root page-table frame, zero until the first
successful `map`, and a table of mappings keyed by start address.  The root frame
comes from the physical allocator, so `map` acts on both; clearing that frame is
the only memory access and is left out, no modelled function reads it.

The address space shares the allocator with the rest of the kernel, so a run
may interleave calls on it with any calls of `alloc_frame` and `free_frame`.
-/

namespace Hyperion.Mm.Vmm

open Hyperion.Lib

inductive MapError where
  | zeroLength
  | unaligned
  | lengthOverflow
  | overlap
  | outOfMemory
  deriving DecidableEq, Repr

structure Mapping where
  va : UInt64
  pa : UInt64
  len : UInt64
  deriving DecidableEq, Repr

structure AddressSpace where
  root : UInt64
  mappings : OrdMap UInt64 Mapping

/-- `normalise_len`: round up to whole pages. -/
def normaliseLen (len : UInt64) : Except MapError UInt64 :=
  if len = 0 then .error .zeroLength
  else
    match checkedAdd len (4096 - 1) with
    | none => .error .lengthOverflow
    | some padded => .ok (padded &&& ~~~(4096 - 1))

/-- `ensure_page_aligned`. -/
def ensurePageAligned (addr : UInt64) : Except MapError Unit :=
  if addr &&& (4096 - 1) = 0 then .ok () else .error .unaligned

/-- `checked_end`. -/
def checkedEnd (start len : UInt64) : Except MapError UInt64 :=
  match checkedAdd start len with
  | none => .error .lengthOverflow
  | some stop => .ok stop

/-- `ranges_overlap`. -/
def rangesOverlap (aStart aEnd bStart bEnd : UInt64) : Bool :=
  aStart < bEnd && bStart < aEnd

/-- The loop of `map` over the existing mappings. -/
def checkOverlap (va stop : UInt64) : List Mapping → Except MapError Unit
  | [] => .ok ()
  | existing :: rest => do
      let existingEnd ← checkedEnd existing.va existing.len
      if rangesOverlap va stop existing.va existingEnd then .error .overlap
      else checkOverlap va stop rest

namespace AddressSpace

/-- `new_unmaterialised`. -/
def newUnmaterialised : AddressSpace := ⟨0, OrdMap.empty⟩

/-- `ensure_root`. -/
def ensureRoot (space : AddressSpace) (pmm : Pmm.State) :
    Except MapError Unit × AddressSpace × Pmm.State :=
  if space.root ≠ 0 then (.ok (), space, pmm)
  else
    match Pmm.allocFrame pmm with
    | (none, pmm') => (.error .outOfMemory, space, pmm')
    | (some frame, pmm') => (.ok (), { space with root := frame }, pmm')

/-- The checks `map` makes before it touches any state; returns the rounded
length. -/
def checkMap (space : AddressSpace) (va pa len : UInt64) : Except MapError UInt64 := do
  let rounded ← normaliseLen len
  ensurePageAligned va
  ensurePageAligned pa
  let stop ← checkedEnd va rounded
  checkOverlap va stop space.mappings.values
  pure rounded

/-- `map`. -/
def map (space : AddressSpace) (pmm : Pmm.State) (va pa len : UInt64) :
    Except MapError Unit × AddressSpace × Pmm.State :=
  match space.checkMap va pa len with
  | .error e => (.error e, space, pmm)
  | .ok rounded =>
    match space.ensureRoot pmm with
    | (.error e, space', pmm') => (.error e, space', pmm')
    | (.ok (), space', pmm') =>
      (.ok (), { space' with mappings := space'.mappings.insert va ⟨va, pa, rounded⟩ }, pmm')

/-- `unmap`. -/
def unmap (space : AddressSpace) (va : UInt64) : Option Mapping × AddressSpace :=
  (space.mappings.get? va, { space with mappings := space.mappings.erase va })

/-- `translate`: the mapping with the greatest start not above `va`, then a
length check.  The addition wraps, as in a release build. -/
def translate (space : AddressSpace) (va : UInt64) : Option UInt64 :=
  match space.mappings.lastLE va with
  | none => none
  | some (start, mapping) =>
    if va < start then none
    else
      let offset := va - start
      if offset < mapping.len then some (mapping.pa + offset) else none

end AddressSpace

/-! ## The address space as a transition system -/

inductive Event where
  | map (va pa len : UInt64) (answer : Except MapError Unit)
  | unmap (va : UInt64) (answer : Option Mapping)
  | frames (event : Pmm.Event)

/-- A call on the address space, or a call of another user of the allocator. -/
inductive Step : AddressSpace × Pmm.State → Event → AddressSpace × Pmm.State → Prop
  | map (space : AddressSpace) (pmm : Pmm.State) (va pa len : UInt64) :
      Step (space, pmm) (.map va pa len (space.map pmm va pa len).1) (space.map pmm va pa len).2
  | unmap (space : AddressSpace) (pmm : Pmm.State) (va : UInt64) :
      Step (space, pmm) (.unmap va (space.unmap va).1) ((space.unmap va).2, pmm)
  | frames (space : AddressSpace) {pmm pmm' : Pmm.State} {event : Pmm.Event}
      (step : Pmm.Step pmm event pmm') : Step (space, pmm) (.frames event) (space, pmm')

end Hyperion.Mm.Vmm
