import Hyperion.Virtio.NetReceive

/-!
# Receiving from a device that is not to be trusted

The used ring and the buffers are the device's to write.  Here the device may leave any
bytes in them at any time, so `recv` can pop any element, as often as the device likes.
What it cannot change is the shape of the queue: how long its parts are, and where the
buffers are (`Shaped`).

`recv` then faults in two ways only, both on values of the element that it popped: the
index of a buffer that does not exist, and a length beyond the end of the buffer.  The
slices are checked, so it never copies anything from outside the buffer.
-/

namespace Hyperion.Virtio.Net

open Hyperion.Lib Virtqueue

/-! ## A device that writes what it likes -/

/-- The receiving side of the driver, and the memory that its buffers are in. -/
structure Exposed where
  net : VirtioNet
  mem : Memory

inductive ExposedEvent where
  | device
  | recv (answer : Option Answer)
  deriving DecidableEq, Repr

inductive ExposedStep : Exposed → ExposedEvent → Exposed → Prop
  | device {net : VirtioNet} {mem : Memory} (used : List UInt8) (after : Memory)
      (hlength : used.length = net.rx.used.length) :
      ExposedStep ⟨net, mem⟩ .device ⟨{ net with rx := { net.rx with used } }, after⟩
  | recv {net next : VirtioNet} {mem : Memory} {out : List UInt8} {answer : Option Answer}
      (hrecv : recv net mem out = .ok (answer, next)) :
      ExposedStep ⟨net, mem⟩ (.recv answer) ⟨next, mem⟩

/-- The parts of a queue of `size` descriptors, each with its buffer. -/
structure Shaped (size : UInt16) (allocate : ℕ → UInt64) (net : VirtioNet) : Prop where
  size_eq : net.rx.size = size
  size_pos : 0 < size.toNat
  desc_length : size.toNat ≤ net.rx.desc.length
  avail_length : 4 + 2 * size.toNat ≤ net.rx.avail.length
  used_length : 4 + 8 * size.toNat ≤ net.rx.used.length
  bufs : net.rxBufs = (List.range size.toNat).map fun i => ⟨allocate i, rxBufSize⟩

section Shaped

variable {size : UInt16} {allocate : ℕ → UInt64} {net next : VirtioNet} {q : Virtqueue}
  {mem : Memory} {out : List UInt8}

section

variable (shaped : Shaped size allocate net)

include shaped

/-- `pop_used` returns whatever is in the used ring. -/
theorem Shaped.exists_popUsed :
    ∃ popped q, net.rx.popUsed = .ok (popped, q) := by
  have hpos := shaped.size_pos
  have hlength := shaped.used_length
  have hslot := slot_lt hpos net.rx.lastUsedIdx
  rw [popUsed, readU16_of_le (by omega)]
  simp only [bind, Except.bind]
  split
  · exact ⟨_, _, rfl⟩
  · rw [subUsize_of_le (by rw [shaped.size_eq]; omega), shaped.size_eq]
    simp only
    rw [readU32_of_le (by omega)]
    simp only
    rw [readU32_of_le (by omega)]
    exact ⟨_, _, rfl⟩

theorem Shaped.popped {popped : Option (UInt32 × UInt32)} (hpop : net.rx.popUsed = .ok (popped, q))
    : Shaped size allocate { net with rx := q } := by
  obtain ⟨lastUsedIdx, rfl⟩ := popUsed_keeps hpop
  exact ⟨shaped.size_eq, shaped.size_pos, shaped.desc_length, shaped.avail_length,
    shaped.used_length, shaped.bufs⟩

theorem Shaped.index_bufs {i : ℕ} (hi : i < size.toNat) :
    index net.rxBufs i = .ok ⟨allocate i, rxBufSize⟩ := by
  rw [index_eq_ok, shaped.bufs, List.getElem?_map, List.getElem?_range hi]
  rfl

/-- The descriptor of a buffer can be handed to the device again. -/
theorem Shaped.exists_refill {head : UInt16} (hhead : head.toNat < size.toNat) :
    ∃ q, refill net.rx net.rxBufs head = .ok q ∧ Shaped size allocate { net with rx := q } := by
  have hdesc := shaped.desc_length
  have hpos := shaped.size_pos
  have hlength := shaped.avail_length
  rw [← shaped.size_eq] at hpos hlength
  obtain ⟨d, hget⟩ : ∃ d, net.rx.desc[head.toNat]? = some d :=
    ⟨_, List.getElem?_eq_getElem (by omega)⟩
  let filled : Virtqueue := { net.rx with
    desc := net.rx.desc.set head.toNat
      { d with
        addr := allocate head.toNat, len := UInt32.ofNat rxBufSize, flags := vringDescFWrite } }
  have hfill : net.rx.fillDesc head (allocate head.toNat) (UInt32.ofNat rxBufSize) vringDescFWrite =
      .ok filled :=
    fillDesc_of_getElem? hget (allocate head.toNat) (UInt32.ofNat rxBufSize) vringDescFWrite
  obtain ⟨avail, hpush, havail⟩ :=
    pushAvail_of_le (show 0 < filled.size.toNat from hpos) hlength head
  refine ⟨{ filled with avail }, ?_, ?_⟩
  · rw [refill, shaped.index_bufs hhead]
    exact bind_eq_ok.mpr ⟨_, rfl, bind_eq_ok.mpr ⟨_, hfill, hpush⟩⟩
  · refine ⟨shaped.size_eq, shaped.size_pos, ?_, ?_, shaped.used_length, shaped.bufs⟩
    · simpa [filled] using hdesc
    · show 4 + 2 * size.toNat ≤ avail.length
      rw [havail]
      exact shaped.avail_length

end

/-! ## One call -/

/-- `recv` returns, and what it copied is from behind the header of a buffer. -/
def Contained (net : VirtioNet) (mem : Memory) (out : List UInt8) : Prop :=
  Returns (recv net mem out) fun result => ∀ answer, result.1 = some answer →
    ∃ b ∈ net.rxBufs, hdrBytes + answer.n ≤ b.len ∧
      answer.filled = mem.bytesFrom (b.addr.toNat + hdrBytes) answer.n ++ out.drop answer.n

/-- What the driver relies on: the element names a buffer, and the bytes that it asks for are
in it. -/
def Honest (size : UInt16) (id len : UInt32) (out : List UInt8) : Prop :=
  id.toUInt16.toNat < size.toNat ∧
    hdrBytes + min (len.toNat - hdrBytes) out.length ≤ rxBufSize

instance (size : UInt16) (id len : UInt32) (out : List UInt8) :
    Decidable (Honest size id len out) :=
  inferInstanceAs (Decidable (_ ∧ _))

variable {id len : UInt32}

/-- A call that pops an honest element. -/
theorem Shaped.recv_of_honest (shaped : Shaped size allocate net)
    (hpop : net.rx.popUsed = .ok (some (id, len), q)) (honest : Honest size id len out) :
    let n := min (len.toNat - hdrBytes) out.length
    let addr := (allocate id.toUInt16.toNat).toNat
    ∃ q', recv net mem out =
        .ok (some ⟨out, n, mem.bytesFrom (addr + hdrBytes) n ++ out.drop n⟩,
          { net with rx := q' }) ∧
      Shaped size allocate { net with rx := q' } := by
  have hbuf := shaped.index_bufs honest.1
  obtain ⟨q', hrefill, hshaped⟩ := (shaped.popped hpop).exists_refill honest.1
  refine ⟨q', ?_, hshaped⟩
  refine bind_eq_ok.mpr ⟨_, hpop, bind_eq_ok.mpr ⟨_, copyOut_of_inside hbuf honest.2, ?_⟩⟩
  exact bind_eq_ok.mpr ⟨q', hrefill, rfl⟩

/-- A call that returns an answer has popped an honest element. -/
theorem Shaped.honest_of_recv (shaped : Shaped size allocate net)
    (hpop : net.rx.popUsed = .ok (some (id, len), q)) {result : Option Answer × VirtioNet}
    (hrecv : recv net mem out = .ok result) : Honest size id len out := by
  obtain ⟨popped, hpop', hrest⟩ := bind_eq_ok.mp hrecv
  obtain rfl : (some (id, len), q) = popped := Except.ok.inj (hpop.symm.trans hpop')
  obtain ⟨⟨head, answer⟩, hcopy, _⟩ := bind_eq_ok.mp hrest
  obtain ⟨b, hbuf, hcopy⟩ := bind_eq_ok.mp hcopy
  obtain ⟨stop, hstop, hcopy⟩ := bind_eq_ok.mp hcopy
  obtain ⟨bytes, hslice, _⟩ := bind_eq_ok.mp hcopy
  rw [index_eq_ok, shaped.bufs, List.getElem?_map] at hbuf
  obtain ⟨i, hi, rfl⟩ := Option.map_eq_some_iff.mp hbuf
  obtain ⟨hlt, _⟩ := List.getElem?_eq_some_iff.mp hi
  obtain ⟨_, rfl⟩ := addUsize_eq_ok.mp hstop
  refine ⟨by simpa using hlt, ?_⟩
  rw [RxBuf.slice] at hslice
  split at hslice
  · rename_i hinside
    exact hinside.2
  · cases hslice

theorem Shaped.stays_contained_iff (shaped : Shaped size allocate net)
    (hpop : net.rx.popUsed = .ok (some (id, len), q)) :
    Contained net mem out ↔ Honest size id len out := by
  constructor
  · rintro ⟨result, hrecv, _⟩
    exact shaped.honest_of_recv hpop hrecv
  · intro honest
    obtain ⟨q', hrecv, _⟩ := shaped.recv_of_honest hpop honest
    refine ⟨_, hrecv, fun answer hanswer => ?_⟩
    obtain rfl := Option.some.inj hanswer
    exact ⟨_, List.mem_of_getElem? (index_eq_ok.mp (shaped.index_bufs honest.1)), honest.2, rfl⟩

/-! ## Runs -/

theorem shaped_initRx {after : Memory} (hinit : initRx size allocate mem = .ok (net, after)) :
    Shaped size allocate net := by
  obtain ⟨rx, hnew, _⟩ := bind_eq_ok.mp hinit
  have hpow := (new_eq_ok hnew).1
  obtain ⟨⟨net', after'⟩, hinit', sound⟩ := sound_initRx hpow mem
  obtain ⟨rfl, rfl⟩ : net = net' ∧ after = after' := by
    simpa using hinit.symm.trans hinit'
  have hlast := sound.descs (size.toNat - 1)
  have hpos : 0 < size.toNat := Nat.pos_of_isPowerOfTwo hpow
  refine ⟨sound.ordered.size_eq, hpos, ?_, ?_, ?_, sound.bufs⟩
  · obtain ⟨d, hget, _⟩ := hlast (by omega)
    have hlt : size.toNat - 1 < net.rx.desc.length := (List.getElem?_eq_some_iff.mp hget).1
    omega
  · have hlength : net.rx.avail.length = 4 + 2 * size.toNat + 2 := sound.ordered.avail.length_eq
    omega
  · have hlength : net.rx.used.length = 4 + 8 * size.toNat + 2 := sound.ordered.used.length_eq
    omega

theorem step_shaped (state : Exposed) (event : ExposedEvent) (next : Exposed)
    (shaped : Shaped size allocate state.net) (step : ExposedStep state event next) :
    Shaped size allocate next.net := by
  cases step with
  | device used after hlength =>
    refine ⟨shaped.size_eq, shaped.size_pos, shaped.desc_length, shaped.avail_length, ?_,
      shaped.bufs⟩
    exact hlength ▸ shaped.used_length
  | recv hrecv =>
    obtain ⟨popped, q, hpop⟩ := shaped.exists_popUsed
    cases popped with
    | none =>
      obtain ⟨result, hpop', hrest⟩ := bind_eq_ok.mp hrecv
      obtain rfl := Except.ok.inj (hpop.symm.trans hpop')
      cases hrest
      exact shaped.popped hpop
    | some elem =>
      obtain ⟨id, len⟩ := elem
      have honest := shaped.honest_of_recv hpop hrecv
      obtain ⟨q', hrecv', hshaped⟩ := shaped.recv_of_honest hpop honest
      rw [hrecv'] at hrecv
      cases hrecv
      exact hshaped

end Shaped

/-- **When `recv` is safe.**  Whatever the device has written and whatever calls were made
before, a call of `recv` returns with bytes of one buffer only, behind its header, exactly
if the index in the element that it pops is below the size of the queue and the bytes that
are copied end inside the buffer. -/
theorem recv_contained_iff (size : UInt16) (allocate : ℕ → UInt64) (mem after : Memory)
    (start : VirtioNet) (hinit : initRx size allocate mem = .ok (start, after))
    (events : List ExposedEvent) (state : Exposed)
    (run : Run ExposedStep ⟨start, after⟩ events state) (id len : UInt32) (q : Virtqueue)
    (hpop : state.net.rx.popUsed = .ok (some (id, len), q)) (out : List UInt8) :
    Contained state.net state.mem out ↔
      id.toUInt16.toNat < size.toNat ∧
        hdrBytes + min (len.toNat - hdrBytes) out.length ≤ rxBufSize := by
  have shaped := run.invariant (fun state => Shaped size allocate state.net)
    (shaped_initRx hinit) step_shaped
  exact shaped.stays_contained_iff hpop

/-! ## Two elements -/

/-- A queue of one descriptor whose buffer is at 0x1000. -/
def netOfOne (avail used : List UInt8) (lastUsedIdx : UInt16) : VirtioNet :=
  ⟨⟨1, [rxDesc 0x1000], avail, used, 0, 0, lastUsedIdx⟩, [⟨0x1000, rxBufSize⟩]⟩

def zeroedBuffer : Memory :=
  Memory.store (fun _ => 0) 0x1000 (List.replicate rxBufSize 0)

/-- The used ring of a queue of one descriptor, with one element. -/
def usedOfOne (id len : ℕ) : List UInt8 := [0, 0, 1, 0] ++ toLe 4 id ++ toLe 4 len ++ [0, 0]

/-- The driver after `init` on a queue of one descriptor, and then that used ring. -/
theorem run_usedOfOne (id len : ℕ) :
    initRx 1 (fun _ => 0x1000) (fun _ => 0) =
        .ok (netOfOne [0, 0, 1, 0, 0, 0, 0, 0] (List.replicate 14 0) 0, zeroedBuffer) ∧
      Run ExposedStep ⟨netOfOne [0, 0, 1, 0, 0, 0, 0, 0] (List.replicate 14 0) 0, zeroedBuffer⟩
        [.device] ⟨netOfOne [0, 0, 1, 0, 0, 0, 0, 0] (usedOfOne id len) 0, zeroedBuffer⟩ := by
  refine ⟨rfl, Run.nil.snoc (.device (usedOfOne id len) zeroedBuffer ?_)⟩
  simp [usedOfOne, netOfOne]

/-- A frame of 100 bytes is received. -/
theorem recv_contained_iff_usedOfOne :
    Contained (netOfOne [0, 0, 1, 0, 0, 0, 0, 0] (usedOfOne 0 112) 0) zeroedBuffer
      (List.replicate 1600 0) := by
  obtain ⟨hinit, run⟩ := run_usedOfOne 0 112
  refine (recv_contained_iff 1 _ _ _ _ hinit _ _ run 0 112
    (netOfOne [0, 0, 1, 0, 0, 0, 0, 0] (usedOfOne 0 112) 1).rx rfl _).mpr ?_
  decide +kernel

/-- A length of 1600 is more than a buffer has, and the buffer of `poll_echo` does not stop
it; index 1 is behind the only buffer. -/
theorem recv_faults :
    (∃ start after state, initRx 1 (fun _ => 0x1000) (fun _ => 0) = .ok (start, after) ∧
      Run ExposedStep ⟨start, after⟩ [.device] state ∧
      recv state.net state.mem (List.replicate 1600 0) = .error .sliceOutOfRange) ∧
    ∃ start after state, initRx 1 (fun _ => 0x1000) (fun _ => 0) = .ok (start, after) ∧
      Run ExposedStep ⟨start, after⟩ [.device] state ∧
      recv state.net state.mem (List.replicate 1600 0) = .error .indexOutOfRange := by
  obtain ⟨hinit, hlong⟩ := run_usedOfOne 0 1600
  obtain ⟨_, hindex⟩ := run_usedOfOne 1 64
  exact ⟨⟨_, _, _, hinit, hlong, by decide +kernel⟩, ⟨_, _, _, hinit, hindex, by decide +kernel⟩⟩

end Hyperion.Virtio.Net
