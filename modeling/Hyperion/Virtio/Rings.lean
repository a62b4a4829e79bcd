import Hyperion.Lib.Transition
import Hyperion.Virtio.Channel

/-!
# Heads and completions travel through the rings in order

The driver and the device share the two byte buffers of a queue.  The driver
pushes heads into the available ring and pops completions from the used ring;
the device fetches heads and publishes completions, writing the slot first and
bumping the index in a second step.  Both sides keep 16-bit free-running indices
and mask them with `size - 1`.

The histories `pushed`, `fetched`, `published` and `popped` are lists without any
wrap.  `Ordered` says that each ring is a channel between two of them.  As at most
`size` heads are outstanding, no two of these lists differ in length by more than
`size`, so a slot is never reused too early and equal indices mean equal lengths.
-/

namespace Hyperion.Virtio

open Hyperion.Lib Virtqueue

/-! ## The device -/

/-- A queue and the state of the device at the other end. -/
structure Rings where
  queue : Virtqueue
  /-- the device's index into the available ring -/
  cursor : UInt16 := 0
  /-- heads fetched and not yet completed -/
  inFlight : List UInt16 := []
  /-- a completion in its slot, before the index is bumped -/
  pending : Option (UInt32 × UInt32) := none
  deriving DecidableEq, Repr

namespace Rings

/-- The device looks for a head it has not fetched yet. -/
def fetch (r : Rings) : Checked (Option UInt16 × Rings) := do
  let idx ← readU16 r.queue.avail 2
  if r.cursor = idx then pure (none, r)
  else
    let slot := r.cursor.toNat &&& (r.queue.size.toNat - 1)
    let head ← readU16 r.queue.avail (4 + slot * 2)
    pure (some head, { r with cursor := r.cursor + 1, inFlight := head :: r.inFlight })

/-- The device completes `head`, writing its slot of the used ring. -/
def writeUsed (r : Rings) (head : UInt16) (len : UInt32) : Checked Rings := do
  let id := head.toUInt32
  let idx ← readU16 r.queue.used 2
  let slot := idx.toNat &&& (r.queue.size.toNat - 1)
  let used ← writeBytes r.queue.used (4 + slot * 8) (toLe 4 id.toNat ++ toLe 4 len.toNat)
  pure { r with
    queue := { r.queue with used }
    inFlight := r.inFlight.erase head
    pending := some (id, len) }

/-- The device publishes the completion it wrote. -/
def publish (r : Rings) : Checked Rings := do
  let idx ← readU16 r.queue.used 2
  let used ← writeBytes r.queue.used 2 (toLe 2 (idx + 1).toNat)
  pure { r with queue := { r.queue with used }, pending := none }

end Rings

/-- A step of the driver or of the device, with what it saw. -/
inductive RingEvent where
  | push (head : UInt16)
  | pop (result : Option (UInt32 × UInt32))
  | fetch (head : UInt16)
  | write (head : UInt16) (len : UInt32)
  | publish (elem : UInt32 × UInt32)
  deriving DecidableEq, Repr

/-- Driver calls in any order, interleaved with a conforming device: it completes
heads it has fetched, in any order, one completion at a time. -/
inductive RingStep : Rings → RingEvent → Rings → Prop
  | push {r : Rings} {head : UInt16} {q : Virtqueue} (hcall : r.queue.pushAvail head = .ok q) :
      RingStep r (.push head) { r with queue := q }
  | pop {r : Rings} {result : Option (UInt32 × UInt32)} {q : Virtqueue}
      (hcall : r.queue.popUsed = .ok (result, q)) : RingStep r (.pop result) { r with queue := q }
  | fetch {r next : Rings} {head : UInt16} (hfetch : r.fetch = .ok (some head, next)) :
      RingStep r (.fetch head) next
  | write {r next : Rings} {head : UInt16} {len : UInt32} (hhead : head ∈ r.inFlight)
      (hidle : r.pending = none) (hwrite : r.writeUsed head len = .ok next) :
      RingStep r (.write head len) next
  | publish {r next : Rings} {elem : UInt32 × UInt32} (hpending : r.pending = some elem)
      (hpublish : r.publish = .ok next) : RingStep r (.publish elem) next

/-! ## Histories -/

namespace RingEvent

def pushed : RingEvent → List UInt16
  | .push head => [head]
  | _ => []

def fetched : RingEvent → List UInt16
  | .fetch head => [head]
  | _ => []

def published : RingEvent → List (UInt32 × UInt32)
  | .publish elem => [elem]
  | _ => []

def popped : RingEvent → List (UInt32 × UInt32)
  | .pop result => result.toList
  | _ => []

end RingEvent

/-- The heads given to `push_avail`, oldest first. -/
def pushed (events : List RingEvent) : List UInt16 := events.flatMap RingEvent.pushed

/-- The heads the device fetched. -/
def fetched (events : List RingEvent) : List UInt16 := events.flatMap RingEvent.fetched

/-- The completions the device published. -/
def published (events : List RingEvent) : List (UInt32 × UInt32) :=
  events.flatMap RingEvent.published

/-- The completions `pop_used` returned. -/
def popped (events : List RingEvent) : List (UInt32 × UInt32) := events.flatMap RingEvent.popped

section Snoc

variable (events : List RingEvent) (event : RingEvent)

@[simp] theorem pushed_snoc : pushed (events ++ [event]) = pushed events ++ event.pushed := by
  simp [pushed]

@[simp] theorem fetched_snoc : fetched (events ++ [event]) = fetched events ++ event.fetched := by
  simp [fetched]

@[simp] theorem published_snoc :
    published (events ++ [event]) = published events ++ event.published := by
  simp [published]

@[simp] theorem popped_snoc : popped (events ++ [event]) = popped events ++ event.popped := by
  simp [popped]

end Snoc

/-- At every moment at most `size` heads were pushed and not yet popped. -/
def Bounded (size : UInt16) (events : List RingEvent) : Prop :=
  ∀ earlier, earlier <+: events → (pushed earlier).length ≤ (popped earlier).length + size.toNat

variable {size : UInt16}

theorem Bounded.of_append {events more : List RingEvent} (hbounded : Bounded size (events ++ more))
    : Bounded size events :=
  fun earlier hearlier => hbounded earlier (hearlier.trans (List.prefix_append events more))

/-! ## The invariant -/

/-- The bytes of an entry of the available ring. -/
def availEntry (head : UInt16) : List UInt8 := toLe 2 head.toNat

/-- The bytes of an entry of the used ring. -/
def usedEntry (elem : UInt32 × UInt32) : List UInt8 := toLe 4 elem.1.toNat ++ toLe 4 elem.2.toNat

theorem length_availEntry (head : UInt16) : (availEntry head).length = 2 := length_toLe 2 _

theorem length_usedEntry (elem : UInt32 × UInt32) : (usedEntry elem).length = 8 := by
  simp [usedEntry]

/-- The rings carry what the histories say. -/
structure Ordered (size : UInt16) (events : List RingEvent) (r : Rings) : Prop where
  size_eq : r.queue.size = size
  power : size.toNat.isPowerOfTwo
  avail : Channel size 2 availEntry r.queue.avail r.cursor (pushed events) (fetched events) none
  used : Channel size 8 usedEntry r.queue.used r.queue.lastUsedIdx (published events)
    (popped events) r.pending
  in_flight : (published events).length + r.pending.toList.length + r.inFlight.length =
    (fetched events).length
  outstanding : (pushed events).length ≤ (popped events).length + size.toNat

namespace Ordered

variable {size : UInt16} {events : List RingEvent} {r : Rings}

theorem size_pos (ord : Ordered size events r) : 0 < size.toNat :=
  Nat.pos_of_isPowerOfTwo ord.power

/-- The four histories are ordered by length, and span at most one ring. -/
theorem lengths (ord : Ordered size events r) :
    (popped events).length ≤ (published events).length ∧
      (published events).length + r.pending.toList.length ≤ (fetched events).length ∧
      (fetched events).length ≤ (pushed events).length ∧
      (pushed events).length < (popped events).length + 2 ^ 16 := by
  have hflight := ord.in_flight
  have hout := ord.outstanding
  have hbound := size.toNat_lt
  exact ⟨ord.used.consumed_prefix.length_le, by omega, ord.avail.consumed_prefix.length_le,
    by omega⟩

end Ordered

/-! ## What each call does to its channel -/

section Calls

variable {q : Virtqueue} {cursor : UInt16}

variable {produced consumed : List UInt16}

theorem pushAvail_eq (hpow : q.size.toNat.isPowerOfTwo)
    (ch : Channel q.size 2 availEntry q.avail cursor produced consumed none) (head : UInt16) :
    q.pushAvail head = .ok { q with
      avail := overwrite (overwrite q.avail (4 + produced.length % q.size.toNat * 2)
        (availEntry head)) 2 (toLe 2 (UInt16.ofNat (produced.length + 1)).toNat) } := by
  have hpos : 0 < q.size.toNat := Nat.pos_of_isPowerOfTwo hpow
  have hle : 4 + produced.length % q.size.toNat * 2 + (availEntry head).length ≤
      q.avail.length := by
    rw [length_availEntry]
    exact ch.slot_le (Nat.mod_lt _ hpos)
  have hidx : 2 + (toLe 2 (UInt16.ofNat (produced.length + 1)).toNat).length ≤
      (overwrite q.avail (4 + produced.length % q.size.toNat * 2) (availEntry head)).length := by
    rw [length_overwrite hle, length_toLe, ch.length_eq]
    omega
  simp only [pushAvail, ch.readIdx, subUsize_of_le hpos, bind, Except.bind, mask_eq_mod hpow,
    ofNat_add_one]
  rw [show toLe 2 head.toNat = availEntry head from rfl, writeBytes_of_le hle]
  simp only
  rw [writeBytes_of_le hidx]
  rfl

theorem readU32_of_slotHolds {buf : List UInt8} {k : ℕ} {elem : UInt32 × UInt32}
    (hle : 4 + k * 8 + 8 ≤ buf.length) (hslot : SlotHolds 8 buf k (usedEntry elem)) :
    readU32 buf (4 + k * 8) = .ok elem.1 ∧ readU32 buf (4 + k * 8 + 4) = .ok elem.2 := by
  obtain ⟨hid, hlen⟩ := bytesAt_split (m := 4) (n := 4) hslot (length_toLe 4 _)
  exact ⟨readU32_of_bytesAt (by omega) hid, readU32_of_bytesAt (by omega) hlen⟩

section Pop

variable {produced consumed : List (UInt32 × UInt32)} {pending : Option (UInt32 × UInt32)}

theorem popUsed_of_eq (hnear : produced.length < consumed.length + 2 ^ 16)
    (ch : Channel q.size 8 usedEntry q.used q.lastUsedIdx produced consumed pending)
    (heq : consumed = produced) : q.popUsed = .ok (none, q) := by
  have hidx := (ch.cursor_eq_idx_iff hnear).mpr heq
  simp only [popUsed, ch.readIdx, bind, Except.bind]
  rw [if_pos hidx.symm]
  rfl

theorem popUsed_of_ne (hpow : q.size.toNat.isPowerOfTwo)
    (hnear : produced.length < consumed.length + 2 ^ 16)
    (ch : Channel q.size 8 usedEntry q.used q.lastUsedIdx produced consumed pending)
    (hne : consumed ≠ produced) :
    ∃ elem, q.popUsed = .ok (some elem, { q with lastUsedIdx := q.lastUsedIdx + 1 }) ∧
      Channel q.size 8 usedEntry q.used (q.lastUsedIdx + 1) produced (consumed ++ [elem])
        pending := by
  have hpos : 0 < q.size.toNat := Nat.pos_of_isPowerOfTwo hpow
  obtain ⟨elem, hslot, hnext⟩ := ch.take hne
  obtain ⟨hid, hlen⟩ := readU32_of_slotHolds (ch.slot_le (Nat.mod_lt _ hpos)) hslot
  refine ⟨elem, ?_, hnext⟩
  have hidx : ¬UInt16.ofNat produced.length = q.lastUsedIdx :=
    fun h => hne ((ch.cursor_eq_idx_iff hnear).mp h.symm)
  simp only [popUsed, ch.readIdx, bind, Except.bind]
  rw [if_neg hidx]
  simp only [subUsize_of_le hpos, ch.cursor_eq, mask_eq_mod hpow, hid, hlen]
  rfl

end Pop

theorem fetch_of_ne {r : Rings} (hpow : r.queue.size.toNat.isPowerOfTwo)
    (hnear : produced.length < consumed.length + 2 ^ 16)
    (ch : Channel r.queue.size 2 availEntry r.queue.avail r.cursor produced consumed none)
    (hne : consumed ≠ produced) :
    ∃ head, r.fetch = .ok (some head,
        { r with cursor := r.cursor + 1, inFlight := head :: r.inFlight }) ∧
      Channel r.queue.size 2 availEntry r.queue.avail (r.cursor + 1) produced (consumed ++ [head])
        none := by
  have hpos : 0 < r.queue.size.toNat := Nat.pos_of_isPowerOfTwo hpow
  obtain ⟨head, hslot, hnext⟩ := ch.take hne
  have hread := readU16_of_bytesAt (ch.slot_le (Nat.mod_lt _ hpos)) hslot
  refine ⟨head, ?_, hnext⟩
  have hidx : ¬r.cursor = UInt16.ofNat produced.length :=
    fun h => hne ((ch.cursor_eq_idx_iff hnear).mp h)
  simp only [Rings.fetch, ch.readIdx, bind, Except.bind]
  rw [if_neg hidx]
  simp only [ch.cursor_eq, mask_eq_mod hpow, hread]
  rfl

theorem fetch_of_eq {r : Rings} (hnear : produced.length < consumed.length + 2 ^ 16)
    (ch : Channel r.queue.size 2 availEntry r.queue.avail r.cursor produced consumed none)
    (heq : consumed = produced) : r.fetch = .ok (none, r) := by
  have hidx := (ch.cursor_eq_idx_iff hnear).mpr heq
  simp only [Rings.fetch, ch.readIdx, bind, Except.bind]
  rw [if_pos hidx]
  rfl

theorem writeUsed_eq {r : Rings} {produced consumed : List (UInt32 × UInt32)}
    {pending : Option (UInt32 × UInt32)} (hpow : r.queue.size.toNat.isPowerOfTwo)
    (ch : Channel r.queue.size 8 usedEntry r.queue.used r.queue.lastUsedIdx produced consumed
      pending) (head : UInt16) (len : UInt32) :
    r.writeUsed head len = .ok { r with
      queue.used := overwrite r.queue.used (4 + produced.length % r.queue.size.toNat * 8)
        (usedEntry (head.toUInt32, len))
      inFlight := r.inFlight.erase head
      pending := some (head.toUInt32, len) } := by
  have hpos : 0 < r.queue.size.toNat := Nat.pos_of_isPowerOfTwo hpow
  have hle : 4 + produced.length % r.queue.size.toNat * 8 +
      (usedEntry (head.toUInt32, len)).length ≤ r.queue.used.length := by
    rw [length_usedEntry]
    exact ch.slot_le (Nat.mod_lt _ hpos)
  have hwrite := writeBytes_of_le hle
  rw [usedEntry] at hwrite
  simp only [Rings.writeUsed, ch.readIdx, bind, Except.bind, mask_eq_mod hpow, hwrite]
  rfl

theorem publish_eq {r : Rings} {produced consumed : List (UInt32 × UInt32)}
    {pending : Option (UInt32 × UInt32)}
    (ch : Channel r.queue.size 8 usedEntry r.queue.used r.queue.lastUsedIdx produced consumed
      pending) :
    r.publish = .ok { r with
      queue.used := overwrite r.queue.used 2 (toLe 2 (UInt16.ofNat (produced.length + 1)).toNat)
      pending := none } := by
  have hle : 2 + (toLe 2 (UInt16.ofNat (produced.length + 1)).toNat).length ≤
      r.queue.used.length := by
    rw [length_toLe, ch.length_eq]
    omega
  simp only [Rings.publish, ch.readIdx, bind, Except.bind, ofNat_add_one, writeBytes_of_le hle]
  rfl

end Calls

namespace Ordered

variable {size : UInt16} {events : List RingEvent} {r : Rings}

/-- `push_avail` stays within its buffer. -/
theorem exists_pushAvail (ord : Ordered size events r) (head : UInt16) :
    ∃ q, r.queue.pushAvail head = .ok q := by
  obtain rfl := ord.size_eq
  exact ⟨_, pushAvail_eq ord.power ord.avail head⟩

/-- `pop_used` stays within its buffer. -/
theorem exists_popUsed (ord : Ordered size events r) :
    ∃ result q, r.queue.popUsed = .ok (result, q) ∧
      (result = none ↔ popped events = published events) := by
  obtain rfl := ord.size_eq
  obtain ⟨hpop, hfetch, hpush, hnear⟩ := ord.lengths
  have hused : (published events).length < (popped events).length + 2 ^ 16 := by omega
  by_cases heq : popped events = published events
  · exact ⟨none, _, popUsed_of_eq hused ord.used heq, by simp [heq]⟩
  · obtain ⟨elem, hcall, _⟩ := popUsed_of_ne ord.power hused ord.used heq
    exact ⟨some elem, _, hcall, by simp [heq]⟩

end Ordered

/-! ## Steps keep the order -/

section Steps

variable {size : UInt16} {events : List RingEvent} {r next : Rings}

theorem ordered_push (ord : Ordered size events r) {head : UInt16} {q : Virtqueue}
    (hcall : r.queue.pushAvail head = .ok q)
    (hroom : (pushed events).length < (popped events).length + size.toNat) :
    Ordered size (events ++ [.push head]) { r with queue := q } := by
  obtain rfl := ord.size_eq
  rw [pushAvail_eq ord.power ord.avail] at hcall
  cases hcall
  obtain ⟨hpop, hfetch, _, _⟩ := ord.lengths
  have hwritten := ord.avail.write (length_availEntry head) ord.size_pos (by omega)
  refine ⟨rfl, ord.power, ?_, ?_, ?_, ?_⟩
  · simpa [RingEvent.pushed, RingEvent.fetched] using hwritten.publish ord.size_pos
  · simpa [RingEvent.published, RingEvent.popped] using ord.used
  · simpa [RingEvent.published, RingEvent.fetched] using ord.in_flight
  · simp [RingEvent.pushed, RingEvent.popped]
    omega

theorem ordered_pop (ord : Ordered size events r) {result : Option (UInt32 × UInt32)}
    {q : Virtqueue} (hcall : r.queue.popUsed = .ok (result, q)) :
    Ordered size (events ++ [.pop result]) { r with queue := q } := by
  obtain rfl := ord.size_eq
  obtain ⟨hpop, hfetch, _, hnear⟩ := ord.lengths
  have hused : (published events).length < (popped events).length + 2 ^ 16 := by omega
  have hout := ord.outstanding
  by_cases heq : popped events = published events
  · rw [popUsed_of_eq hused ord.used heq] at hcall
    cases hcall
    refine ⟨rfl, ord.power, ?_, ?_, ?_, ?_⟩
    · simpa [RingEvent.pushed, RingEvent.fetched] using ord.avail
    · simpa [RingEvent.published, RingEvent.popped] using ord.used
    · simpa [RingEvent.published, RingEvent.fetched] using ord.in_flight
    · simpa [RingEvent.pushed, RingEvent.popped] using hout
  · obtain ⟨elem, hpopUsed, hnext⟩ := popUsed_of_ne ord.power hused ord.used heq
    rw [hpopUsed] at hcall
    cases hcall
    refine ⟨rfl, ord.power, ?_, ?_, ?_, ?_⟩
    · simpa [RingEvent.pushed, RingEvent.fetched] using ord.avail
    · simpa [RingEvent.published, RingEvent.popped] using hnext
    · simpa [RingEvent.published, RingEvent.fetched] using ord.in_flight
    · simp [RingEvent.pushed, RingEvent.popped]
      omega

theorem fetch_keeps {head : UInt16} {rings : Rings}
    (hfetch : r.fetch = .ok (some head, rings)) :
    rings = { r with cursor := r.cursor + 1, inFlight := head :: r.inFlight } := by
  obtain ⟨_, _, hfetch⟩ := bind_eq_ok.mp hfetch
  split at hfetch
  · cases hfetch
  · obtain ⟨_, _, hfetch⟩ := bind_eq_ok.mp hfetch
    cases hfetch
    rfl

theorem ordered_fetch (ord : Ordered size events r) {head : UInt16}
    (hfetch : r.fetch = .ok (some head, next)) : Ordered size (events ++ [.fetch head]) next := by
  obtain rfl := ord.size_eq
  obtain ⟨hpop, _, _, hnear⟩ := ord.lengths
  have havail : (pushed events).length < (fetched events).length + 2 ^ 16 := by omega
  have hflight := ord.in_flight
  by_cases heq : fetched events = pushed events
  · rw [fetch_of_eq havail ord.avail heq] at hfetch
    cases hfetch
  · obtain ⟨first, hfirst, hnext⟩ := fetch_of_ne ord.power havail ord.avail heq
    rw [hfirst] at hfetch
    cases hfetch
    refine ⟨rfl, ord.power, ?_, ?_, ?_, ?_⟩
    · simpa [RingEvent.pushed, RingEvent.fetched] using hnext
    · simpa [RingEvent.published, RingEvent.popped] using ord.used
    · simp [RingEvent.published, RingEvent.fetched]
      omega
    · simpa [RingEvent.pushed, RingEvent.popped] using ord.outstanding

theorem ordered_write (ord : Ordered size events r) {head : UInt16} {len : UInt32}
    (hhead : head ∈ r.inFlight) (hidle : r.pending = none)
    (hwrite : r.writeUsed head len = .ok next) :
    Ordered size (events ++ [.write head len]) next := by
  obtain rfl := ord.size_eq
  obtain ⟨_, _, hfetch, _⟩ := ord.lengths
  have hout := ord.outstanding
  have hflight := ord.in_flight
  have hpos : 0 < r.inFlight.length := List.length_pos_of_mem hhead
  have hused := ord.used
  rw [writeUsed_eq ord.power hused] at hwrite
  cases hwrite
  rw [hidle] at hused hflight
  simp only [Option.toList_none, List.length_nil] at hflight
  have hwritten := hused.write (length_usedEntry (head.toUInt32, len)) ord.size_pos (by omega)
  refine ⟨rfl, ord.power, ?_, ?_, ?_, ?_⟩
  · simpa [RingEvent.pushed, RingEvent.fetched] using ord.avail
  · simpa [RingEvent.published, RingEvent.popped] using hwritten
  · simp [RingEvent.published, RingEvent.fetched, List.length_erase_of_mem hhead]
    omega
  · simpa [RingEvent.pushed, RingEvent.popped] using hout

theorem ordered_publish (ord : Ordered size events r) {elem : UInt32 × UInt32}
    (hpending : r.pending = some elem) (hpublish : r.publish = .ok next) :
    Ordered size (events ++ [.publish elem]) next := by
  obtain rfl := ord.size_eq
  have hused := ord.used
  have hflight := ord.in_flight
  rw [publish_eq hused] at hpublish
  cases hpublish
  rw [hpending] at hused hflight
  refine ⟨rfl, ord.power, ?_, ?_, ?_, ?_⟩
  · simpa [RingEvent.pushed, RingEvent.fetched] using ord.avail
  · simpa [RingEvent.published, RingEvent.popped] using hused.publish ord.size_pos
  · simpa [RingEvent.published, RingEvent.fetched] using hflight
  · simpa [RingEvent.pushed, RingEvent.popped] using ord.outstanding

end Steps

theorem step_ordered (events : List RingEvent) (r : Rings) (event : RingEvent) (next : Rings)
    (hord : Bounded size events → Ordered size events r) (step : RingStep r event next)
    (hbounded : Bounded size (events ++ [event])) :
    Ordered size (events ++ [event]) next := by
  have ord := hord hbounded.of_append
  cases step with
  | push hcall =>
    -- the bound after the push is the room before it
    have hafter := hbounded _ (List.prefix_refl _)
    simp [RingEvent.pushed, RingEvent.popped] at hafter
    exact ordered_push ord hcall (by omega)
  | pop hcall => exact ordered_pop ord hcall
  | fetch hfetch => exact ordered_fetch ord hfetch
  | write hhead hidle hwrite => exact ordered_write ord hhead hidle hwrite
  | publish hpending hpublish => exact ordered_publish ord hpending hpublish

/-! ## Runs -/

theorem channel_zero {α : Type} {width : ℕ} {encode : α → List UInt8} :
    Channel size width encode (List.replicate (4 + width * size.toNat + 2) 0) 0 [] [] none := by
  refine ⟨List.length_replicate, ?_, ?_, rfl, List.prefix_refl _⟩
  · rw [IdxHolds, bytesAt, List.drop_replicate, List.take_replicate, min_eq_left (by omega)]
    simp [toLe]
  · intro i a _ hget
    simp at hget

theorem ordered_new {start : Virtqueue} (hnew : Virtqueue.new size = .ok start) :
    Ordered size [] { queue := start } := by
  unfold Virtqueue.new at hnew
  split at hnew
  · rename_i hsize
    cases hnew
    exact ⟨rfl, hsize.1, channel_zero, channel_zero, rfl, Nat.zero_le _⟩
  · cases hnew

theorem run_ordered {start : Virtqueue} (hnew : Virtqueue.new size = .ok start)
    {events : List RingEvent} {r : Rings} (run : Run RingStep { queue := start } events r)
    (hbounded : Bounded size events) : Ordered size events r :=
  run.history_invariant (fun events r => Bounded size events → Ordered size events r)
    (fun _ => ordered_new hnew) step_ordered hbounded

/-- **Nothing is lost, duplicated or reordered on its way through the rings.**  As
long as at most `size` heads are outstanding, the device fetches a prefix of what
was pushed and `pop_used` returns a prefix of what was published, for runs of any
length, and no access of either side leaves the buffers. -/
theorem rings_in_order (size : UInt16) (hsize : size.toNat.isPowerOfTwo) :
    ∃ start, Virtqueue.new size = .ok start ∧
      ∀ (events : List RingEvent) (r : Rings), Run RingStep { queue := start } events r →
        Bounded size events →
        fetched events <+: pushed events ∧ popped events <+: published events ∧
        (∃ result q, r.queue.popUsed = .ok (result, q) ∧
          (result = none ↔ popped events = published events)) ∧
        (∀ head, ∃ q, r.queue.pushAvail head = .ok q) ∧
        (∃ result next, r.fetch = .ok (result, next) ∧
          (result = none ↔ fetched events = pushed events)) ∧
        (∀ head len, ∃ next, r.writeUsed head len = .ok next) ∧
        ∃ next, r.publish = .ok next := by
  obtain ⟨start, hnew⟩ := new_of_isPowerOfTwo hsize
  refine ⟨start, hnew, ?_⟩
  intro events r run hbounded
  have ord := run_ordered hnew run hbounded
  obtain rfl := ord.size_eq
  obtain ⟨hpop, hfetch, hpush, hnear⟩ := ord.lengths
  have havail : (pushed events).length < (fetched events).length + 2 ^ 16 := by omega
  refine ⟨ord.avail.consumed_prefix, ord.used.consumed_prefix, ord.exists_popUsed,
    ord.exists_pushAvail, ?_,
    fun head len => ⟨_, writeUsed_eq ord.power ord.used head len⟩, ⟨_, publish_eq ord.used⟩⟩
  by_cases heq : fetched events = pushed events
  · exact ⟨none, _, fetch_of_eq havail ord.avail heq, by simp [heq]⟩
  · obtain ⟨head, hcall, _⟩ := fetch_of_ne ord.power havail ord.avail heq
    exact ⟨some head, _, hcall, by simp [heq]⟩

/-- A queue of one descriptor. -/
def ringsOfOne (avail used : List UInt8) (lastUsedIdx cursor : UInt16) (inFlight : List UInt16)
    (pending : Option (UInt32 × UInt32)) : Rings :=
  let queue : Virtqueue := ⟨1, [⟨0, 0, 1, 0⟩], avail, used, 0, 1, lastUsedIdx⟩
  { queue, cursor, inFlight, pending }

theorem rings_in_order_ringsOfOne :
    ∃ start r events, Virtqueue.new 1 = .ok start ∧ Run RingStep { queue := start } events r ∧
      events = [.push 0, .fetch 0, .write 0 512, .publish (0, 512), .pop (some (0, 512)), .push 0] ∧
      popped events = [(0, 512)] ∧ popped events <+: published events := by
  let zeros := List.replicate 14 (0 : UInt8)
  let avail₁ : List UInt8 := [0, 0, 1, 0, 0, 0, 0, 0]
  let avail₂ : List UInt8 := [0, 0, 2, 0, 0, 0, 0, 0]
  let used₁ : List UInt8 := [0, 0, 0, 0, 0, 0, 0, 0, 0, 2, 0, 0, 0, 0]
  let used₂ : List UInt8 := [0, 0, 1, 0, 0, 0, 0, 0, 0, 2, 0, 0, 0, 0]
  have hpush : RingStep (ringsOfOne (List.replicate 8 0) zeros 0 0 [] none) (.push 0)
      (ringsOfOne avail₁ zeros 0 0 [] none) := .push (by decide +kernel)
  have hfetch : RingStep (ringsOfOne avail₁ zeros 0 0 [] none) (.fetch 0)
      (ringsOfOne avail₁ zeros 0 1 [0] none) := .fetch (by decide +kernel)
  have hwrite : RingStep (ringsOfOne avail₁ zeros 0 1 [0] none) (.write 0 512)
      (ringsOfOne avail₁ used₁ 0 1 [] (some (0, 512))) :=
    .write (by decide +kernel) rfl (by decide +kernel)
  have hpublish : RingStep (ringsOfOne avail₁ used₁ 0 1 [] (some (0, 512))) (.publish (0, 512))
      (ringsOfOne avail₁ used₂ 0 1 [] none) := .publish rfl rfl
  have hpop : RingStep (ringsOfOne avail₁ used₂ 0 1 [] none) (.pop (some (0, 512)))
      (ringsOfOne avail₁ used₂ 1 1 [] none) := .pop (by decide +kernel)
  have hagain : RingStep (ringsOfOne avail₁ used₂ 1 1 [] none) (.push 0)
      (ringsOfOne avail₂ used₂ 1 1 [] none) := .push (by decide +kernel)
  have hrun := (((((Run.nil.snoc hpush).snoc hfetch).snoc hwrite).snoc hpublish).snoc hpop).snoc
    hagain
  have hinits : ∀ earlier ∈ List.inits [.push 0, .fetch 0, .write 0 512, .publish (0, 512),
      .pop (some (0, 512)), .push 0], (pushed earlier).length ≤ (popped earlier).length + 1 := by
    decide +kernel
  obtain ⟨_, hnew, hall⟩ := rings_in_order 1 (by decide)
  obtain rfl := Except.ok.inj hnew
  have hprefix := (hall _ _ hrun
    (fun earlier hearlier => hinits earlier ((List.mem_inits _ _).mpr hearlier))).2.1
  exact ⟨_, _, _, hnew, hrun, rfl, rfl, hprefix⟩

end Hyperion.Virtio
