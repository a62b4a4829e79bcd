import Hyperion.Lib.Bytes
import Hyperion.Lib.Checked
import Hyperion.Lib.Linked

/-!
# The split virtqueue

`drivers/virtio/queue.rs`.  The descriptor table, the two rings as the byte
buffers the device also sees, and the driver's bookkeeping.  Every `[]` of the
source is an `index` or `setIndex` here, so that an access outside its buffer is
a fault.  The free list and the chains in flight are threaded through the same two
fields, `next` and the `NEXT` bit of `flags`; `nextOf` and `moreOf` are those fields
as functions of the descriptor's index.
-/

namespace Hyperion.Virtio

open Hyperion.Lib

structure Desc where
  addr : UInt64 := 0
  len : UInt32 := 0
  flags : UInt16 := 0
  next : UInt16 := 0
  deriving DecidableEq, Repr

def vringDescFNext : UInt16 := 1
def vringDescFWrite : UInt16 := 2

/-- `flags & VRING_DESC_F_NEXT != 0`. -/
def Desc.hasNext (desc : Desc) : Bool := desc.flags &&& vringDescFNext != 0

/-- The successor recorded at an index, `0` outside the table. -/
def nextOf (desc : List Desc) (i : UInt16) : UInt16 := (desc[i.toNat]?).elim 0 Desc.next

/-- Whether the descriptor at an index says that it has a successor. -/
def moreOf (desc : List Desc) (i : UInt16) : Bool := (desc[i.toNat]?).any Desc.hasNext

structure Virtqueue where
  size : UInt16
  desc : List Desc
  /-- `[flags: u16][idx: u16][ring: u16 * size][event: u16]` -/
  avail : List UInt8
  /-- `[flags: u16][idx: u16][ring: (id: u32, len: u32) * size][event: u16]` -/
  used : List UInt8
  freeHead : UInt16
  numFree : UInt16
  lastUsedIdx : UInt16
  deriving DecidableEq, Repr

namespace Virtqueue

/-- The descriptor at index `i` of a new table: linked to its right neighbour,
the last one to the first. -/
def freshDesc (size : UInt16) (i : ℕ) : Desc where
  next := if i + 1 < size.toNat then UInt16.ofNat (i + 1) else 0
  flags := vringDescFNext

def new (size : UInt16) : Checked Virtqueue :=
  if size.toNat.isPowerOfTwo ∧ 0 < size.toNat then
    .ok
      { size
        desc := (List.range size.toNat).map (freshDesc size)
        avail := List.replicate (4 + 2 * size.toNat + 2) 0
        used := List.replicate (4 + 8 * size.toNat + 2) 0
        freeHead := 0
        numFree := size
        lastUsedIdx := 0 }
  else .error .assertFailed

theorem new_of_isPowerOfTwo {size : UInt16} (hsize : size.toNat.isPowerOfTwo) :
    ∃ q, new size = .ok q := by
  have hpos : 0 < size.toNat := Nat.pos_of_isPowerOfTwo hsize
  exact ⟨_, if_pos ⟨hsize, hpos⟩⟩

/-! ## Descriptors -/

def allocDesc (q : Virtqueue) : Checked (Option UInt16 × Virtqueue) :=
  if q.numFree = 0 then pure (none, q)
  else do
    let idx := q.freeHead
    let d ← index q.desc idx.toNat
    let desc ← setIndex q.desc idx.toNat { addr := 0, len := 0, flags := 0, next := 0 }
    pure (some idx, { q with freeHead := d.next, numFree := q.numFree - 1, desc })

/-- `desc[prev].flags |= VRING_DESC_F_NEXT; desc[prev].next = next`. -/
def link (q : Virtqueue) (prev next : UInt16) : Checked Virtqueue := do
  let d ← index q.desc prev.toNat
  let desc ← setIndex q.desc prev.toNat { d with flags := d.flags ||| vringDescFNext, next }
  pure { q with desc }

/-- The `for _ in 1..n` loop of `alloc_chain`, with the number of turns left. -/
def extendChain (head : UInt16) : ℕ → UInt16 → Virtqueue → Checked (Option UInt16 × Virtqueue)
  | 0, _, q => pure (some head, q)
  | turns + 1, prev, q => do
      match ← q.allocDesc with
      | (none, q) => pure (none, q)
      | (some next, q) =>
        let q ← q.link prev next
        extendChain head turns next q

def allocChain (q : Virtqueue) (n : ℕ) : Checked (Option UInt16 × Virtqueue) :=
  -- `n as u16` truncates
  if q.numFree < UInt16.ofNat n ∨ n = 0 then pure (none, q)
  else do
    match ← q.allocDesc with
    | (none, q) => pure (none, q)
    | (some head, q) => extendChain head (n - 1) head q

/-- One turn of the loop of `free_chain`. -/
def freeTurn : Virtqueue × UInt16 → Checked (Turn (Virtqueue × UInt16) Virtqueue)
  | (q, idx) => do
      let d ← index q.desc idx.toNat
      let desc ← setIndex q.desc idx.toNat { d with flags := vringDescFNext, next := q.freeHead }
      -- `num_free += 1` on `u16`
      if q.numFree.toNat + 1 < 2 ^ 16 then
        let q := { q with desc, freeHead := idx, numFree := q.numFree + 1 }
        pure (if d.hasNext then .again (q, d.next) else .leave q)
      else .error .overflow

def freeChain (q : Virtqueue) (head : UInt16) (fuel : ℕ) : Checked Virtqueue :=
  loop freeTurn fuel (q, head)

/-- What a driver does to a descriptor it owns: `addr`, `len` and `flags` are
overwritten, `next` is left alone. -/
def fillDesc (q : Virtqueue) (idx : UInt16) (addr : UInt64) (len : UInt32) (flags : UInt16) :
    Checked Virtqueue := do
  let d ← index q.desc idx.toNat
  let desc ← setIndex q.desc idx.toNat { d with addr, len, flags }
  pure { q with desc }

/-! ## Rings -/

/-- `u16::from_le_bytes([buf[off], buf[off + 1]])`. -/
def readU16 (buf : List UInt8) (off : ℕ) : Checked UInt16 := do
  let bytes ← readBytes buf off 2
  pure (UInt16.ofNat (fromLe bytes))

/-- `u32::from_le_bytes` of the four bytes of `buf` at `off`. -/
def readU32 (buf : List UInt8) (off : ℕ) : Checked UInt32 := do
  let bytes ← readBytes buf off 4
  pure (UInt32.ofNat (fromLe bytes))

def pushAvail (q : Virtqueue) (head : UInt16) : Checked Virtqueue := do
  let availIdx ← readU16 q.avail 2
  let slot := availIdx.toNat &&& (← subUsize q.size.toNat 1)
  let off := 4 + slot * 2
  let avail ← writeBytes q.avail off (toLe 2 head.toNat)
  let newIdx := availIdx + 1
  let avail ← writeBytes avail 2 (toLe 2 newIdx.toNat)
  pure { q with avail }

def popUsed (q : Virtqueue) : Checked (Option (UInt32 × UInt32) × Virtqueue) := do
  let deviceIdx ← readU16 q.used 2
  if deviceIdx = q.lastUsedIdx then pure (none, q)
  else
    let slot := q.lastUsedIdx.toNat &&& (← subUsize q.size.toNat 1)
    let off := 4 + slot * 8
    let id ← readU32 q.used off
    let len ← readU32 q.used (off + 4)
    pure (some (id, len), { q with lastUsedIdx := q.lastUsedIdx + 1 })

/-! ## Access inside the rings -/

theorem slot_lt {size : UInt16} (hpos : 0 < size.toNat) (idx : UInt16) :
    idx.toNat &&& (size.toNat - 1) < size.toNat := by
  have hle : idx.toNat &&& (size.toNat - 1) ≤ size.toNat - 1 := Nat.and_le_right
  omega

theorem readU16_of_le {buf : List UInt8} {off : ℕ} (hle : off + 2 ≤ buf.length) :
    readU16 buf off = .ok (UInt16.ofNat (fromLe (bytesAt buf off 2))) := by
  rw [readU16, readBytes_of_le hle]
  rfl

theorem readU32_of_le {buf : List UInt8} {off : ℕ} (hle : off + 4 ≤ buf.length) :
    readU32 buf off = .ok (UInt32.ofNat (fromLe (bytesAt buf off 4))) := by
  rw [readU32, readBytes_of_le hle]
  rfl

theorem pushAvail_of_le {q : Virtqueue} (hpos : 0 < q.size.toNat)
    (hlength : 4 + 2 * q.size.toNat ≤ q.avail.length) (head : UInt16) :
    ∃ avail, q.pushAvail head = .ok { q with avail } ∧ avail.length = q.avail.length := by
  generalize hidx : UInt16.ofNat (fromLe (bytesAt q.avail 2 2)) = idx
  have hread : readU16 q.avail 2 = .ok idx := by rw [readU16_of_le (by omega), hidx]
  have hslot := slot_lt hpos idx
  let off := 4 + (idx.toNat &&& (q.size.toNat - 1)) * 2
  have hentry : off + (toLe 2 head.toNat).length ≤ q.avail.length := by
    rw [length_toLe]
    omega
  have hsame : (overwrite q.avail off (toLe 2 head.toNat)).length = q.avail.length :=
    length_overwrite hentry
  have hcursor : 2 + (toLe 2 (idx + 1).toNat).length ≤
      (overwrite q.avail off (toLe 2 head.toNat)).length := by
    rw [length_toLe, hsame]
    omega
  refine ⟨_, ?_, (length_overwrite hcursor).trans hsame⟩
  simp only [pushAvail, hread, subUsize_of_le (show 1 ≤ q.size.toNat from hpos), bind, Except.bind]
  rw [writeBytes_of_le hentry]
  simp only
  rw [writeBytes_of_le hcursor]
  rfl

end Virtqueue

end Hyperion.Virtio
