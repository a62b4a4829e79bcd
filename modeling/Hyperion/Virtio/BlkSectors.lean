import Hyperion.Virtio.BlkSections

/-!
# The length of a request

`read_sectors` and `write_sectors` of `drivers/virtio/blk.rs`, up to the point where the
device is notified.  The number of bytes, `n * SECTOR_SIZE`, is computed three times:
wrapped to 64 bits it is compared with the length of the buffer and sizes the copy that
`write_sectors` makes, and wrapped once more to 32 bits it is what the device is told.

The three agree with the product as long as it is below `2^32` (`sectorBytes_of_lt`).
Beyond that a request that is not turned away tells the device a smaller length
(`toNat_sectorBytes_ne`).
-/

namespace Hyperion.Virtio.Blk

open Hyperion.Lib Virtqueue

structure ReqHeader where
  ty : UInt32
  reserved : UInt32
  sector : UInt64
  deriving DecidableEq, Repr

/-- A byte slice: where it is, and what is in it. -/
structure Buffer where
  addr : UInt64
  bytes : List UInt8
  deriving DecidableEq, Repr

/-- Where the allocator puts what a call allocates. -/
structure Boxes where
  header : UInt64
  status : UInt64
  tmp : UInt64
  deriving DecidableEq, Repr

/-- A request the device has been notified of. -/
structure Submitted where
  header : ReqHeader
  data : Buffer
  head : UInt16
  deriving DecidableEq, Repr

/-- `do_request` up to `queue_notify`. -/
def doRequest (q : Virtqueue) (boxes : Boxes) (ty : UInt32) (sector : UInt64) (n : ℕ)
    (data : Buffer) : Checked (Except String Submitted × Virtqueue) := do
  let header : ReqHeader := { ty, reserved := 0, sector }
  match ← submit q ⟨ty, n, boxes.header, data.addr, boxes.status⟩ with
  | (none, q) => pure (.error "virtio-blk: virtqueue full", q)
  | (some head, q) => pure (.ok ⟨header, data, head⟩, q)

def readSectors (q : Virtqueue) (boxes : Boxes) (sector : UInt64) (n : ℕ) (buf : Buffer) :
    Checked (Except String Submitted × Virtqueue) :=
  if buf.bytes.length < sectorBytes n then pure (.error "buffer too small", q)
  else doRequest q boxes virtioBlkTIn sector n buf

def writeSectors (q : Virtqueue) (boxes : Boxes) (sector : UInt64) (n : ℕ) (buf : Buffer) :
    Checked (Except String Submitted × Virtqueue) :=
  if buf.bytes.length < sectorBytes n then pure (.error "buffer too small", q)
  else do
    let bytes ← slice buf.bytes 0 (sectorBytes n)
    let tmp ← copyFromSlice (List.replicate (sectorBytes n) 0) 0 (sectorBytes n) bytes
    doRequest q boxes virtioBlkTOut sector n ⟨boxes.tmp, tmp⟩

/-! ## The three lengths -/

theorem sectorBytes_of_lt {n : ℕ} (hlt : n * sectorSize < 2 ^ 32) :
    sectorBytes n = n * sectorSize ∧ (UInt32.ofNat (sectorBytes n)).toNat = n * sectorSize := by
  have hbytes : sectorBytes n = n * sectorSize :=
    Nat.mod_eq_of_lt (hlt.trans (by norm_num [usizeBound]))
  exact ⟨hbytes, by rw [hbytes, UInt32.toNat_ofNat', Nat.mod_eq_of_lt hlt]⟩

theorem toNat_sectorBytes_ne {n : ℕ} (hge : 2 ^ 32 ≤ n * sectorSize) :
    (UInt32.ofNat (sectorBytes n)).toNat ≠ n * sectorSize :=
  ((UInt32.toNat_lt _).trans_le hge).ne

/-! ## Queues in service -/

/-- The queue of a driver: the table is as some run of allocating, filling and freeing left
it, and the rings are of the length that `new` gave them, whatever they hold. -/
inductive InService (size : UInt16) : Virtqueue → Prop
  | mk {start q : Virtqueue} {live : List UInt16} {ops : List Op} {avail used : List UInt8}
      {lastUsedIdx : UInt16} (hnew : Virtqueue.new size = .ok start)
      (run : Run Virtio.Step ⟨start, []⟩ ops ⟨q, live⟩)
      (havail : avail.length = start.avail.length) :
      InService size { q with avail, used, lastUsedIdx }

theorem InService.owned {size : UInt16} {q : Virtqueue} (service : InService size q) :
    0 < q.size.toNat ∧ 4 + 2 * q.size.toNat ≤ q.avail.length ∧
      ∃ free chains, Owned q free chains ∧ q.numFree.toNat = free.length := by
  obtain ⟨hnew, run, havail⟩ := service
  rename_i start q live ops avail used lastUsedIdx
  have sound := run_sound hnew run
  have hsize : q.size = size := sound.size_eq
  have howned : Owned q q.freeList (live.map q.chainFrom) := sound.owned
  have hpos : 0 < size.toNat := Nat.pos_of_isPowerOfTwo (new_eq_ok hnew).1
  have hlength : start.avail.length = 4 + 2 * size.toNat + 2 := by
    unfold Virtqueue.new at hnew
    split at hnew
    · cases hnew
      simp
    · cases hnew
  refine ⟨by rwa [hsize], ?_, q.freeList, live.map q.chainFrom, ?_, howned.numFree_eq⟩
  · show 4 + 2 * q.size.toNat ≤ avail.length
    rw [hsize, havail, hlength]
    omega
  · exact howned.of_desc_eq rfl rfl rfl rfl

/-! ## Exact requests -/

/-- The data descriptor of a submitted request: the second one of its chain. -/
def dataDesc (q : Virtqueue) (request : Submitted) : Option Desc :=
  q.desc[(nextOf q.desc request.head).toNat]?

/-- A call asks the device for exactly `n` sectors, all inside the buffer, or it is turned
away with the queue as it was. -/
def Exact (q : Virtqueue) (n : ℕ) (buf : Buffer)
    (call : Checked (Except String Submitted × Virtqueue)) : Prop :=
  ∃ answer next, call = .ok (answer, next) ∧
    match answer with
    | .error _ => next = q
    | .ok request => (dataDesc next request).map (fun d => d.len.toNat) = some (n * sectorSize) ∧
        n * sectorSize ≤ buf.bytes.length

section Exact

variable {size : UInt16} {q : Virtqueue} {n : ℕ} {buf : Buffer}

theorem exact_of_error {message : String} : Exact q n buf (pure (.error message, q)) :=
  ⟨_, _, rfl, rfl⟩

theorem doRequest_of_full (service : InService size q) (hfull : q.numFree.toNat < 3)
    (boxes : Boxes) (ty : UInt32) (sector : UInt64) (data : Buffer) :
    doRequest q boxes ty sector n data = pure (.error "virtio-blk: virtqueue full", q) := by
  obtain ⟨_, _, free, chains, howned, hcount⟩ := service.owned
  rw [doRequest, submit_of_full _ howned (by omega)]
  rfl

/-- A call that comes as far as the queue, and finds room there. -/
theorem doRequest_of_room (service : InService size q) (hroom : 3 ≤ q.numFree.toNat)
    (boxes : Boxes) (ty : UInt32) (sector : UInt64) (data : Buffer) :
    ∃ request next, doRequest q boxes ty sector n data = .ok (.ok request, next) ∧
      (dataDesc next request).map Desc.len = some (UInt32.ofNat (sectorBytes n)) := by
  obtain ⟨hpos, hlength, free, chains, howned, hcount⟩ := service.owned
  obtain ⟨head, a, b, filled, hsubmit, hframe, hfilled, hlen, _⟩ :=
    submit_of_room ⟨ty, n, boxes.header, data.addr, boxes.status⟩ howned (by omega)
  obtain ⟨avail, hpush, _⟩ := pushAvail_of_le (by rwa [hframe.size_eq])
    (by rwa [hframe.size_eq, hframe.avail_eq]) head
  refine ⟨⟨⟨ty, 0, sector⟩, data, head⟩, { filled with avail }, ?_, ?_⟩
  · rw [doRequest, hsubmit, hpush]
    rfl
  · have hnext : nextOf filled.desc head = a := (linked_three hfilled).1
    show (filled.desc[(nextOf filled.desc head).toNat]?).map Desc.len = _
    rw [hnext, hlen]

/-- A call that its length check lets through is exact where the queue is full or the
product fits in 32 bits, and nowhere else. -/
theorem exact_doRequest_iff (service : InService size q)
    (hlarge : sectorBytes n ≤ buf.bytes.length) (boxes : Boxes) (ty : UInt32) (sector : UInt64)
    (data : Buffer) :
    Exact q n buf (doRequest q boxes ty sector n data) ↔
      n * sectorSize < 2 ^ 32 ∨ q.numFree.toNat < 3 := by
  rcases lt_or_ge q.numFree.toNat 3 with hfull | hroom
  · rw [doRequest_of_full service hfull]
    exact iff_of_true exact_of_error (.inr hfull)
  obtain ⟨request, next, hcall, hlen⟩ := doRequest_of_room service hroom boxes ty sector data
  obtain ⟨d, hdesc, hd⟩ := Option.map_eq_some_iff.mp hlen
  have hiff : Exact q n buf (doRequest q boxes ty sector n data) ↔
      (UInt32.ofNat (sectorBytes n)).toNat = n * sectorSize ∧
        n * sectorSize ≤ buf.bytes.length := by
    rw [hcall]
    constructor
    · rintro ⟨_, _, hsame, hexact⟩
      cases hsame
      simpa only [hdesc, Option.map_some, hd, Option.some.injEq] using hexact
    · intro hexact
      refine ⟨_, _, rfl, ?_⟩
      simpa only [hdesc, Option.map_some, hd, Option.some.injEq] using hexact
  rw [hiff]
  constructor
  · intro hexact
    exact .inl (not_le.mp fun hge => toNat_sectorBytes_ne hge hexact.1)
  · intro hfits
    obtain ⟨hbytes, htold⟩ := sectorBytes_of_lt (hfits.resolve_right hroom.not_gt)
    exact ⟨htold, by rwa [← hbytes]⟩

/-- `write_sectors` copies without a fault. -/
theorem writeSectors_of_le (hlarge : sectorBytes n ≤ buf.bytes.length) (boxes : Boxes)
    (sector : UInt64) :
    writeSectors q boxes sector n buf =
      doRequest q boxes virtioBlkTOut sector n ⟨boxes.tmp, buf.bytes.take (sectorBytes n)⟩ := by
  have hslice : slice buf.bytes 0 (sectorBytes n) = .ok (buf.bytes.take (sectorBytes n)) := by
    rw [slice_of_le (Nat.zero_le _) hlarge]
    simp
  have htake : (buf.bytes.take (sectorBytes n)).length = sectorBytes n :=
    List.length_take_of_le hlarge
  have hcopy : copyFromSlice (List.replicate (sectorBytes n) 0) 0 (sectorBytes n)
      (buf.bytes.take (sectorBytes n)) = .ok (buf.bytes.take (sectorBytes n)) := by
    have hfits : 0 + (buf.bytes.take (sectorBytes n)).length ≤
        (List.replicate (sectorBytes n) (0 : UInt8)).length := by
      rw [htake, List.length_replicate, Nat.zero_add]
    have hcopied := copyFromSlice_of_le hfits
    rw [htake, Nat.zero_add] at hcopied
    rw [hcopied]
    simp [overwrite, htake]
  rw [writeSectors, if_neg hlarge.not_gt, hslice]
  simp only [bind, Except.bind, hcopy]

/-- The requests that ask the device for exactly what the caller asked for. -/
theorem sectors_exact_iff (service : InService size q) (boxes : Boxes) (sector : UInt64) (n : ℕ)
    (buf : Buffer) :
    let exactly := n * sectorSize < 2 ^ 32 ∨ buf.bytes.length < sectorBytes n ∨
      q.numFree.toNat < 3
    (Exact q n buf (readSectors q boxes sector n buf) ↔ exactly) ∧
      (Exact q n buf (writeSectors q boxes sector n buf) ↔ exactly) := by
  intro exactly
  rcases lt_or_ge buf.bytes.length (sectorBytes n) with hshort | hlarge
  · rw [readSectors, writeSectors, if_pos hshort, if_pos hshort]
    have hexactly : exactly := Or.inr (.inl hshort)
    exact ⟨iff_of_true exact_of_error hexactly, iff_of_true exact_of_error hexactly⟩
  · have hiff := exact_doRequest_iff service hlarge boxes
    have hexactly : exactly ↔ n * sectorSize < 2 ^ 32 ∨ q.numFree.toNat < 3 := by
      simp only [exactly, hlarge.not_gt, false_or]
    rw [readSectors, if_neg hlarge.not_gt, writeSectors_of_le hlarge, hexactly]
    exact ⟨hiff _ _ _, hiff _ _ _⟩

/-- A queue of four descriptors, none of them in use. -/
def freshFour : Virtqueue :=
  queueOfFour [⟨0, 0, 1, 1⟩, ⟨0, 0, 1, 2⟩, ⟨0, 0, 1, 3⟩, ⟨0, 0, 1, 0⟩] 0 4

theorem inService_freshFour : InService 4 freshFour := by
  have hnew : Virtqueue.new 4 = .ok freshFour := rfl
  have hservice : InService 4 { freshFour with lastUsedIdx := 0 } := .mk hnew .nil rfl
  exact hservice

theorem sectors_exact_iff_freshFour :
    InService 4 freshFour ∧
      Exact freshFour 1 ⟨4096, List.replicate 512 7⟩
        (readSectors freshFour ⟨8192, 8208, 12288⟩ 9 1 ⟨4096, List.replicate 512 7⟩) := by
  refine ⟨inService_freshFour, ?_⟩
  exact (sectors_exact_iff inService_freshFour ⟨8192, 8208, 12288⟩ 9 1 _).1.mpr
    (.inl (by decide))

/-- `read_sectors(0, 1 << 55, &mut [])` is not turned away: the number of bytes wraps to
zero, and the device is asked for nothing. -/
theorem readSectors_wraps :
    InService 4 freshFour ∧
      ¬Exact freshFour (2 ^ 55) ⟨4096, []⟩
        (readSectors freshFour ⟨8192, 8208, 12288⟩ 0 (2 ^ 55) ⟨4096, []⟩) ∧
      ∃ request next,
        readSectors freshFour ⟨8192, 8208, 12288⟩ 0 (2 ^ 55) ⟨4096, []⟩ =
          .ok (.ok request, next) ∧ (dataDesc next request).map Desc.len = some 0 := by
  have hbytes : sectorBytes (2 ^ 55) = 0 := by decide
  have hread : readSectors freshFour ⟨8192, 8208, 12288⟩ 0 (2 ^ 55) ⟨4096, []⟩ =
      doRequest freshFour ⟨8192, 8208, 12288⟩ virtioBlkTIn 0 (2 ^ 55) ⟨4096, []⟩ :=
    if_neg (by rw [hbytes]; decide)
  rw [hread]
  refine ⟨inService_freshFour, ?_, ?_⟩
  · rw [exact_doRequest_iff inService_freshFour (by rw [hbytes]; decide)]
    decide
  · obtain ⟨request, next, hcall, hlen⟩ := doRequest_of_room inService_freshFour (by decide)
      ⟨8192, 8208, 12288⟩ virtioBlkTIn 0 ⟨4096, []⟩
    exact ⟨request, next, hcall, by rw [hlen, hbytes]; rfl⟩

end Exact

end Hyperion.Virtio.Blk
