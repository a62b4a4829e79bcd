import Hyperion.Virtio.Frame
import Hyperion.Virtio.Net

/-!
# No descriptor of the receive queue is lost

`recv` never looks at the free list: the descriptor that it hands to the device is the
one that the device has just reported.  That there are `size` of them all the time, each
in one place, follows from the contents of the two rings: what was pushed and not
fetched, what the device is working on, what it has completed and nobody has popped, and
what the call in progress holds are together a permutation of all indices (`Sound`).

The device writes only into buffers of descriptors it is working on, so the buffer of a
completed one stays as it is until `recv` has copied it.
-/

namespace Hyperion.Virtio.Net

open Hyperion.Lib Virtqueue

theorem toNat_rxBufSize : (UInt32.ofNat rxBufSize).toNat = rxBufSize := by decide

/-- The buffers do not overlap. -/
def Apart (size : UInt16) (allocate : ℕ → UInt64) : Prop :=
  ∀ i j, i < size.toNat → j < size.toNat → i ≠ j →
    (allocate i).toNat + rxBufSize ≤ (allocate j).toNat ∨
      (allocate j).toNat + rxBufSize ≤ (allocate i).toNat

/-- The buffer of a completed descriptor still has the contents that were delivered. -/
def Stored (allocate : ℕ → UInt64) (mem : Memory) (c : Completion) : Prop :=
  mem.bytesFrom (allocate c.head.toNat).toNat rxBufSize = c.contents

theorem Completion.of_elem {c : Completion} {id len : UInt32} (helem : c.elem = (id, len)) :
    c.head = id.toUInt16 ∧ c.len = len := by
  obtain ⟨hid, hlen⟩ := Prod.mk.inj helem
  rw [← hid]
  exact ⟨(UInt16.toUInt16_toUInt32 c.head).symm, hlen⟩

/-- The completion that the call in progress is about is the first one without an
answer. -/
def Current (allocate : ℕ → UInt64) (mem : Memory) (done : List Completion) (popped given : ℕ) :
    Option Receiving → Prop
  | none => popped = given
  | some (.popped id len _) => popped = given + 1 ∧
      ∃ c, done[given]? = some c ∧ c.elem = (id, len) ∧ Stored allocate mem c
  | some (.copied head answer) => popped = given + 1 ∧
      ∃ c, done[given]? = some c ∧ c.head = head ∧ Delivers c answer

/-- Frames that come later do not matter to it. -/
theorem Current.append {allocate : ℕ → UInt64} {mem : Memory} {done : List Completion}
    {popped given : ℕ} {receiving : Option Receiving}
    (hcurrent : Current allocate mem done popped given receiving) (more : List Completion) :
    Current allocate mem (done ++ more) popped given receiving := by
  have hgrow : ∀ {c}, done[given]? = some c → (done ++ more)[given]? = some c := by
    intro c hget
    rw [List.getElem?_append_left (List.getElem?_eq_some_iff.mp hget).1]
    exact hget
  cases receiving with
  | none => exact hcurrent
  | some point =>
    cases point with
    | popped id len out =>
      obtain ⟨hcount, c, hget, hrest⟩ := hcurrent
      exact ⟨hcount, c, hgrow hget, hrest⟩
    | copied head answer =>
      obtain ⟨hcount, c, hget, hrest⟩ := hcurrent
      exact ⟨hcount, c, hgrow hget, hrest⟩

/-- What holds after every step, in terms of what happened on the rings, of the frames
that were delivered and of the answers that were given. -/
structure Sound (size : UInt16) (allocate : ℕ → UInt64) (ring : List RingEvent)
    (done : List Completion) (given : List Answer) (s : NetSystem) : Prop where
  ordered : Ordered size ring s.rings
  bufs : s.rxBufs = (List.range size.toNat).map fun i => ⟨allocate i, rxBufSize⟩
  descs : ∀ i < size.toNat, ∃ d, s.rings.queue.desc[i]? = some d ∧ d.addr = allocate i ∧
    d.len.toNat = rxBufSize
  elems : done.map Completion.elem = published ring ++ s.rings.pending.toList
  lens : ∀ c ∈ done, hdrBytes ≤ c.len.toNat ∧ c.len.toNat ≤ rxBufSize
  places : ((pushed ring).drop (fetched ring).length ++ s.rings.inFlight ++
    (done.drop (popped ring).length).map Completion.head ++ s.held).Perm (indices size)
  frames : ∀ c ∈ done.drop (popped ring).length, Stored allocate s.mem c
  current : Current allocate s.mem done (popped ring).length given.length s.receiving
  delivered : List.Forall₂ Delivers (done.take given.length) given

namespace Sound

variable {size : UInt16} {allocate : ℕ → UInt64} {ring : List RingEvent}
  {done : List Completion} {given : List Answer} {s : NetSystem}

section

variable (sound : Sound size allocate ring done given s)

include sound

theorem popped_le_done :
    (popped ring).length ≤ done.length := by
  have hpub := sound.ordered.used.consumed_prefix.length_le
  have hdone := congrArg List.length sound.elems
  rw [List.length_map, List.length_append] at hdone
  omega

theorem given_le_done :
    given.length ≤ done.length := by
  have hlength := sound.delivered.length_eq
  rw [List.length_take] at hlength
  omega

/-- A descriptor is in one place only. -/
theorem nodup_places :
    ((pushed ring).drop (fetched ring).length ++ s.rings.inFlight ++
      (done.drop (popped ring).length).map Completion.head ++ s.held).Nodup :=
  sound.places.nodup_iff.mpr (nodup_indices size)

theorem lt_size_of_inFlight {head : UInt16} (hhead : head ∈ s.rings.inFlight) :
    head.toNat < size.toNat := by
  rw [← mem_indices, ← sound.places.mem_iff]
  simp [hhead]

theorem lt_size_of_unpopped {c : Completion} (hc : c ∈ done.drop (popped ring).length) :
    c.head.toNat < size.toNat := by
  rw [← mem_indices, ← sound.places.mem_iff]
  simp only [List.mem_append, List.mem_map]
  exact .inl (.inr ⟨c, hc, rfl⟩)

theorem lt_size_of_held {head : UInt16} (hhead : head ∈ s.held) : head.toNat < size.toNat := by
  rw [← mem_indices, ← sound.places.mem_iff]
  simp [hhead]

theorem ne_of_unpopped {head : UInt16} (hhead : head ∈ s.rings.inFlight) {c : Completion}
    (hc : c ∈ done.drop (popped ring).length) : c.head ≠ head := by
  have hnodup := (List.nodup_append.mp sound.nodup_places).1
  have hdisjoint := (List.nodup_append.mp hnodup).2.2
  exact (hdisjoint head (List.mem_append_right _ hhead) c.head (List.mem_map_of_mem hc)).symm

theorem ne_of_held {head other : UInt16} (hhead : head ∈ s.rings.inFlight) (hother : other ∈ s.held)
    : other ≠ head := by
  have hdisjoint := (List.nodup_append.mp sound.nodup_places).2.2
  exact (hdisjoint head (by simp [hhead]) other hother).symm

/-- As many descriptors as the device and the driver have between them. -/
theorem length_places :
    (pushed ring).length + s.held.length = (popped ring).length + size.toNat := by
  have hlength := sound.places.length_eq
  have hpop := sound.popped_le_done
  have hfetch := sound.ordered.avail.consumed_prefix.length_le
  have hflight := sound.ordered.in_flight
  have hdone := congrArg List.length sound.elems
  simp only [indices, List.length_append, List.length_map, List.length_drop, List.length_range]
    at hlength hdone
  omega

/-- A step that passes something on between the rings and the device: the completions
stay as they are, published or not, and so do the descriptors that wait for the device
or are with it. -/
theorem of_rings {event : RingEvent} {rings : Rings}
    (hordered : Ordered size (ring ++ [event]) rings)
    (hdesc : rings.queue.desc = s.rings.queue.desc) (hpop : event.popped = [])
    (helems : published (ring ++ [event]) ++ rings.pending.toList =
      published ring ++ s.rings.pending.toList)
    (hwaiting : ((pushed (ring ++ [event])).drop (fetched (ring ++ [event])).length ++
      rings.inFlight).Perm ((pushed ring).drop (fetched ring).length ++ s.rings.inFlight)) :
    Sound size allocate (ring ++ [event]) done given { s with rings } := by
  have hpopped : popped (ring ++ [event]) = popped ring := by
    rw [popped_snoc, hpop, List.append_nil]
  constructor
  case ordered => exact hordered
  case bufs => exact sound.bufs
  case descs =>
    show ∀ i < size.toNat, ∃ d, rings.queue.desc[i]? = some d ∧ _
    rw [hdesc]
    exact sound.descs
  case elems => exact sound.elems.trans helems.symm
  case lens => exact sound.lens
  case places =>
    rw [hpopped]
    exact ((hwaiting.append_right _).append_right _).trans sound.places
  case frames =>
    rw [hpopped]
    exact sound.frames
  case current =>
    rw [hpopped]
    exact sound.current
  case delivered => exact sound.delivered

end

end Sound

/-! ## Steps of the device -/

section Device

variable {size : UInt16} {allocate : ℕ → UInt64} {ring : List RingEvent}
  {done : List Completion} {given : List Answer} {s : NetSystem} {rings : Rings} {head : UInt16}

theorem drop_of_concat_prefix {α : Type} {xs ys : List α} {a : α} (hbegins : xs ++ [a] <+: ys) :
    ys.drop xs.length = a :: ys.drop (xs.length + 1) := by
  obtain ⟨rest, rfl⟩ := hbegins
  simp

theorem writeUsed_keeps {r next : Rings} {len : UInt32} (hwrite : r.writeUsed head len = .ok next) :
    next.queue.desc = r.queue.desc ∧ next.inFlight = r.inFlight.erase head ∧
      next.pending = some (head.toUInt32, len) := by
  obtain ⟨_, _, hrest⟩ := bind_eq_ok.mp hwrite
  obtain ⟨_, _, hrest⟩ := bind_eq_ok.mp hrest
  cases hrest
  exact ⟨rfl, rfl, rfl⟩

theorem publish_keeps {r next : Rings} (hpublish : r.publish = .ok next) :
    next.queue.desc = r.queue.desc ∧ next.inFlight = r.inFlight ∧ next.pending = none := by
  obtain ⟨_, _, hrest⟩ := bind_eq_ok.mp hpublish
  obtain ⟨_, _, hrest⟩ := bind_eq_ok.mp hrest
  cases hrest
  exact ⟨rfl, rfl, rfl⟩

theorem sound_fetch (sound : Sound size allocate ring done given s)
    (hfetch : s.rings.fetch = .ok (some head, rings)) :
    Sound size allocate (ring ++ [.fetch head]) done given { s with rings } := by
  have hordered := ordered_fetch sound.ordered hfetch
  obtain rfl := fetch_keeps hfetch
  have hpushed : pushed (ring ++ [.fetch head]) = pushed ring := by simp [RingEvent.pushed]
  have hfetched : fetched (ring ++ [.fetch head]) = fetched ring ++ [head] := by
    simp [RingEvent.fetched]
  refine sound.of_rings hordered rfl rfl (by simp [RingEvent.published]) ?_
  have hdrop : (pushed ring).drop (fetched ring).length =
      head :: (pushed ring).drop ((fetched ring).length + 1) := by
    apply drop_of_concat_prefix
    rw [← hfetched, ← hpushed]
    exact hordered.avail.consumed_prefix
  rw [hpushed, hfetched, hdrop, List.length_append, List.length_singleton]
  exact List.perm_middle

/-- The device writes into a buffer that no completed descriptor has. -/
theorem stored_store (hapart : Apart size allocate) {mem : Memory} {c : Completion} {off : ℕ}
    {bytes : List UInt8} (hc : c.head.toNat < size.toNat) (hhead : head.toNat < size.toNat)
    (hne : c.head ≠ head) (hinside : off + bytes.length ≤ rxBufSize)
    (hstored : Stored allocate mem c) :
    Stored allocate (mem.store ((allocate head.toNat).toNat + off) bytes) c := by
  have hdistinct : c.head.toNat ≠ head.toNat := fun heq => hne (UInt16.toNat_inj.mp heq)
  unfold Stored
  rw [Memory.bytesFrom_store_of_disjoint]
  · exact hstored
  · rcases hapart _ _ hc hhead hdistinct with hbefore | hafter
    · left
      omega
    · right
      omega

theorem sound_dma (hapart : Apart size allocate) (sound : Sound size allocate ring done given s)
    {off : ℕ} {bytes : List UInt8} {d : Desc} (hhead : head ∈ s.rings.inFlight)
    (hdesc : s.rings.queue.desc[head.toNat]? = some d)
    (hinside : off + bytes.length ≤ d.len.toNat) :
    Sound size allocate ring done given
      { s with mem := s.mem.store (d.addr.toNat + off) bytes } := by
  have hlt := sound.lt_size_of_inFlight hhead
  obtain ⟨d', hget, haddr, hlen⟩ := sound.descs head.toNat hlt
  obtain rfl : d = d' := Option.some.inj (hdesc.symm.trans hget)
  rw [hlen] at hinside
  rw [haddr]
  constructor
  case ordered => exact sound.ordered
  case bufs => exact sound.bufs
  case descs => exact sound.descs
  case elems => exact sound.elems
  case lens => exact sound.lens
  case places => exact sound.places
  case frames =>
    intro c hc
    exact stored_store hapart (sound.lt_size_of_unpopped hc) hlt (sound.ne_of_unpopped hhead hc)
      hinside (sound.frames c hc)
  case current =>
    have hcurrent := sound.current
    cases hreceiving : s.receiving with
    | none =>
      rw [hreceiving] at hcurrent
      exact hcurrent
    | some point =>
      rw [hreceiving] at hcurrent
      cases point with
      | copied other answer => exact hcurrent
      | popped id len out =>
        -- the completion in progress is not the device's any more
        obtain ⟨hcount, c, hget, helem, hstored⟩ := hcurrent
        have hheld : c.head ∈ s.held := by
          rw [NetSystem.held, hreceiving]
          exact List.mem_singleton.mpr (Completion.of_elem helem).1
        exact ⟨hcount, c, hget, helem, stored_store hapart (sound.lt_size_of_held hheld) hlt
          (sound.ne_of_held hhead hheld) hinside hstored⟩
  case delivered => exact sound.delivered

theorem sound_complete (sound : Sound size allocate ring done given s) {len : UInt32} {d : Desc}
    (hhead : head ∈ s.rings.inFlight) (hdesc : s.rings.queue.desc[head.toNat]? = some d)
    (hwriting : s.rings.pending = none) (hheader : hdrBytes ≤ len.toNat)
    (hframe : len.toNat ≤ rxBufSize) (hwrite : s.rings.writeUsed head len = .ok rings) :
    Sound size allocate (ring ++ [.write head len])
      (done ++ [⟨head, len, s.mem.bytesFrom d.addr.toNat d.len.toNat⟩]) given { s with rings } := by
  obtain ⟨hkept, hflight, hpending⟩ := writeUsed_keeps hwrite
  obtain ⟨d', hget, haddr, hlen⟩ := sound.descs head.toNat (sound.lt_size_of_inFlight hhead)
  obtain rfl : d = d' := Option.some.inj (hdesc.symm.trans hget)
  have hpushed : pushed (ring ++ [.write head len]) = pushed ring := by simp [RingEvent.pushed]
  have hfetched : fetched (ring ++ [.write head len]) = fetched ring := by simp [RingEvent.fetched]
  have hpublished : published (ring ++ [.write head len]) = published ring := by
    simp [RingEvent.published]
  have hpopped : popped (ring ++ [.write head len]) = popped ring := by simp [RingEvent.popped]
  have hdrop : ∀ c, (done ++ [c]).drop (popped ring).length =
      done.drop (popped ring).length ++ [c] :=
    fun c => List.drop_append_of_le_length sound.popped_le_done
  constructor
  case ordered => exact ordered_write sound.ordered hhead hwriting hwrite
  case bufs => exact sound.bufs
  case descs =>
    show ∀ i < size.toNat, ∃ d, rings.queue.desc[i]? = some d ∧ _
    rw [hkept]
    exact sound.descs
  case elems =>
    rw [hpublished, hpending, List.map_append, sound.elems, hwriting]
    simp [Completion.elem]
  case lens =>
    intro c hc
    rcases List.mem_append.mp hc with hold | hnew
    · exact sound.lens c hold
    · rw [List.mem_singleton.mp hnew]
      exact ⟨hheader, hframe⟩
  case places =>
    refine List.Perm.trans ?_ sound.places
    rw [hpushed, hfetched, hpopped, hflight, hdrop]
    have herase := List.perm_cons_erase hhead
    rw [List.perm_iff_count] at herase ⊢
    intro other
    have hcount := herase other
    simp only [NetSystem.held, List.map_append, List.map_cons, List.map_nil, List.count_append,
      List.count_cons, List.count_nil] at hcount ⊢
    omega
  case frames =>
    intro c hc
    rw [hpopped, hdrop] at hc
    rcases List.mem_append.mp hc with hold | hnew
    · exact sound.frames c hold
    · rw [List.mem_singleton.mp hnew, Stored, haddr, hlen]
  case current =>
    rw [hpopped]
    exact sound.current.append _
  case delivered =>
    rw [List.take_append_of_le_length sound.given_le_done]
    exact sound.delivered

theorem sound_publish (sound : Sound size allocate ring done given s) {elem : UInt32 × UInt32}
    (hpending : s.rings.pending = some elem) (hpublish : s.rings.publish = .ok rings) :
    Sound size allocate (ring ++ [.publish elem]) done given { s with rings } := by
  obtain ⟨hkept, hflight, hdone⟩ := publish_keeps hpublish
  refine sound.of_rings (ordered_publish sound.ordered hpending hpublish) hkept rfl ?_ ?_
  · simp [RingEvent.published, hdone, hpending]
  · simp [RingEvent.pushed, RingEvent.fetched, hflight]

end Device

/-! ## Steps of the driver -/

section Driver

variable {size : UInt16} {allocate : ℕ → UInt64} {ring : List RingEvent}
  {done : List Completion} {given : List Answer} {s : NetSystem} {q : Virtqueue}

section

variable (sound : Sound size allocate ring done given s)

include sound

theorem sound_empty (hpop : s.rings.queue.popUsed = .ok (none, q)) :
    Sound size allocate (ring ++ [.pop none]) done given
      { s with rings := { s.rings with queue := q } } := by
  have hordered := ordered_pop sound.ordered hpop
  obtain ⟨_, rfl⟩ := popUsed_keeps hpop
  refine sound.of_rings hordered rfl rfl ?_ ?_
  · simp [RingEvent.published]
  · simp [RingEvent.pushed, RingEvent.fetched]

/-- The element that is popped is that of the next completion. -/
theorem Sound.next_completion {elem : UInt32 × UInt32}
    (hpop : s.rings.queue.popUsed = .ok (some elem, q)) :
    ∃ c, done[(popped ring).length]? = some c ∧ c.elem = elem := by
  obtain ⟨rest, hrest⟩ := (ordered_pop sound.ordered hpop).used.consumed_prefix
  simp only [popped_snoc, published_snoc, RingEvent.popped, RingEvent.published,
    Option.toList_some, List.append_nil] at hrest
  have hmap : (done.map Completion.elem)[(popped ring).length]? = some elem := by
    rw [sound.elems, ← hrest]
    simp
  rw [List.getElem?_map] at hmap
  exact Option.map_eq_some_iff.mp hmap

theorem sound_pop {id len : UInt32} (out : List UInt8) (hidle : s.receiving = none)
    (hpop : s.rings.queue.popUsed = .ok (some (id, len), q)) :
    Sound size allocate (ring ++ [.pop (some (id, len))]) done given
      { s with rings := { s.rings with queue := q }, receiving := some (.popped id len out) } := by
  have hordered := ordered_pop sound.ordered hpop
  obtain ⟨_, rfl⟩ := popUsed_keeps hpop
  have hpushed : pushed (ring ++ [.pop (some (id, len))]) = pushed ring := by
    simp [RingEvent.pushed]
  have hfetched : fetched (ring ++ [.pop (some (id, len))]) = fetched ring := by
    simp [RingEvent.fetched]
  have hpublished : published (ring ++ [.pop (some (id, len))]) = published ring := by
    simp [RingEvent.published]
  have hpopped : popped (ring ++ [.pop (some (id, len))]) = popped ring ++ [(id, len)] := by
    simp [RingEvent.popped]
  have hlength : (popped (ring ++ [.pop (some (id, len))])).length = (popped ring).length + 1 := by
    rw [hpopped, List.length_append, List.length_singleton]
  have hcount : (popped ring).length = given.length := by
    have hcurrent := sound.current
    rw [hidle] at hcurrent
    exact hcurrent
  obtain ⟨c, hget, helem⟩ := sound.next_completion hpop
  obtain ⟨hbound, hentry⟩ := List.getElem?_eq_some_iff.mp hget
  have hdrop : done.drop (popped ring).length = c :: done.drop ((popped ring).length + 1) := by
    rw [List.drop_eq_getElem_cons hbound, hentry]
  constructor
  case ordered => exact hordered
  case bufs => exact sound.bufs
  case descs => exact sound.descs
  case elems =>
    rw [hpublished]
    exact sound.elems
  case lens => exact sound.lens
  case places =>
    refine List.Perm.trans ?_ sound.places
    have hbefore : s.held = [] := by
      rw [NetSystem.held, hidle]
      rfl
    change List.Perm (_ ++ s.rings.inFlight ++ _ ++ [id.toUInt16]) _
    rw [hpushed, hfetched, hlength, hdrop, hbefore, ← (Completion.of_elem helem).1,
      List.perm_iff_count]
    intro other
    simp only [List.map_cons, List.count_append, List.count_cons, List.count_nil]
    omega
  case frames =>
    intro c' hc'
    rw [hlength] at hc'
    exact sound.frames c' (hdrop ▸ List.mem_cons_of_mem c hc')
  case current =>
    rw [hlength, hcount]
    exact ⟨rfl, c, hcount ▸ hget, helem, sound.frames c (hdrop ▸ List.mem_cons_self)⟩
  case delivered => exact sound.delivered

end

theorem bytesFrom_drop_take (mem : Memory) (addr : ℕ) {k n total : ℕ} (hle : k + n ≤ total) :
    ((mem.bytesFrom addr total).drop k).take n = mem.bytesFrom (addr + k) n := by
  obtain ⟨rest, rfl⟩ := Nat.exists_eq_add_of_le hle
  rw [Nat.add_assoc, Memory.bytesFrom_add, List.drop_left' (Memory.length_bytesFrom _ _ _),
    Memory.bytesFrom_add, List.take_left' (Memory.length_bytesFrom _ _ _)]

theorem copyFromSlice_front {out bytes : List UInt8} {n : ℕ} (hle : n ≤ out.length)
    (hlength : bytes.length = n) : copyFromSlice out 0 n bytes = .ok (bytes ++ out.drop n) := by
  have hfits : copyFromSlice out 0 (0 + bytes.length) bytes = .ok (overwrite out 0 bytes) :=
    copyFromSlice_of_le (by omega)
  rw [Nat.zero_add, hlength] at hfits
  rw [hfits, overwrite, hlength]
  simp

theorem index_bufs (sound : Sound size allocate ring done given s) {head : UInt16}
    (hlt : head.toNat < size.toNat) :
    index s.rxBufs head.toNat = .ok ⟨allocate head.toNat, rxBufSize⟩ := by
  rw [index_eq_ok, sound.bufs, List.getElem?_map, List.getElem?_range hlt]
  rfl

/-- What `recv` copies, if that is inside the buffer. -/
theorem copyOut_of_inside {rxBufs : List RxBuf} {mem : Memory} {id len : UInt32}
    {out : List UInt8} {b : RxBuf} (hbuf : index rxBufs id.toUInt16.toNat = .ok b)
    (hinside : hdrBytes + min (len.toNat - hdrBytes) out.length ≤ b.len) :
    let n := min (len.toNat - hdrBytes) out.length
    copyOut rxBufs mem id len out =
      .ok (id.toUInt16, ⟨out, n, mem.bytesFrom (b.addr.toNat + hdrBytes) n ++ out.drop n⟩) := by
  intro n
  have hstop : addUsize hdrBytes n = .ok (hdrBytes + n) := by
    have hlen := len.toNat_lt
    refine addUsize_of_lt ?_
    show 12 + min (len.toNat - 12) out.length < 2 ^ 64
    omega
  have hslice : b.slice mem hdrBytes (hdrBytes + n) =
      .ok (mem.bytesFrom (b.addr.toNat + hdrBytes) n) := by
    rw [RxBuf.slice, if_pos ⟨Nat.le_add_right _ _, hinside⟩, Nat.add_sub_cancel_left]
  have hcopy := copyFromSlice_front (show n ≤ out.length from min_le_right _ _)
    (Memory.length_bytesFrom mem (b.addr.toNat + hdrBytes) n)
  simp only [copyOut, hbuf, bind, Except.bind]
  rw [hstop]
  simp only [hslice]
  rw [hcopy]
  rfl

section

variable (sound : Sound size allocate ring done given s)

include sound

/-- The call in progress copies the frame of its completion. -/
theorem copyOut_of_popped {id len : UInt32} {out : List UInt8}
    (hpopped : s.receiving = some (.popped id len out)) :
    ∃ c answer, copyOut s.rxBufs s.mem id len out = .ok (c.head, answer) ∧
      done[given.length]? = some c ∧ Delivers c answer := by
  have hcurrent := sound.current
  rw [hpopped] at hcurrent
  obtain ⟨_, c, hget, helem, hstored⟩ := hcurrent
  obtain ⟨hhead, hlen⟩ := Completion.of_elem helem
  have hheld : c.head ∈ s.held := by
    rw [NetSystem.held, hpopped]
    exact List.mem_singleton.mpr hhead
  have hbuf := index_bufs sound (sound.lt_size_of_held hheld)
  have hinside : hdrBytes + min (len.toNat - hdrBytes) out.length ≤ rxBufSize := by
    have hle : len.toNat ≤ rxBufSize := hlen ▸ (sound.lens c (List.mem_of_getElem? hget)).2
    have hheader : hdrBytes ≤ rxBufSize := by decide
    omega
  rw [hhead] at hbuf
  refine ⟨c, _, hhead ▸ copyOut_of_inside hbuf hinside, hget, ?_, ?_⟩
  · rw [hlen]
  · have hbytes : s.mem.bytesFrom ((allocate c.head.toNat).toNat + hdrBytes)
        (min (len.toNat - hdrBytes) out.length) =
        (c.contents.drop hdrBytes).take (min (len.toNat - hdrBytes) out.length) := by
      rw [← hstored, bytesFrom_drop_take _ _ hinside]
    rw [hbytes]

theorem sound_copy {id len : UInt32} {out : List UInt8} {head : UInt16} {answer : Answer}
    (hpopped : s.receiving = some (.popped id len out))
    (hcopy : copyOut s.rxBufs s.mem id len out = .ok (head, answer)) :
    Sound size allocate ring done given
      { s with receiving := some (.copied head answer) } := by
  obtain ⟨c, _, hok, hget, hdelivers⟩ := copyOut_of_popped sound hpopped
  rw [hok] at hcopy
  cases hcopy
  have hcurrent := sound.current
  have hplaces := sound.places
  rw [hpopped] at hcurrent
  obtain ⟨hcount, c', hget', helem, _⟩ := hcurrent
  obtain rfl : c = c' := Option.some.inj (hget.symm.trans hget')
  rw [NetSystem.held, hpopped] at hplaces
  change List.Perm (_ ++ [id.toUInt16]) _ at hplaces
  constructor
  case ordered => exact sound.ordered
  case bufs => exact sound.bufs
  case descs => exact sound.descs
  case elems => exact sound.elems
  case lens => exact sound.lens
  case places =>
    rw [← (Completion.of_elem helem).1] at hplaces
    exact hplaces
  case frames => exact sound.frames
  case current => exact ⟨hcount, c, hget, rfl, hdelivers⟩
  case delivered => exact sound.delivered

/-- The descriptor of the call in progress, and what it says. -/
theorem refill_of_copied {head : UInt16} {answer : Answer}
    (hcopied : s.receiving = some (.copied head answer)) :
    head.toNat < size.toNat ∧ ∃ d filled next,
      s.rings.queue.desc[head.toNat]? = some d ∧
      s.rings.queue.fillDesc head (allocate head.toNat) (UInt32.ofNat rxBufSize) vringDescFWrite =
        .ok filled ∧
      filled.pushAvail head = .ok next ∧
      refill s.rings.queue s.rxBufs head = .ok next := by
  have hlt : head.toNat < size.toNat := by
    apply sound.lt_size_of_held
    rw [NetSystem.held, hcopied]
    exact List.mem_singleton_self head
  obtain ⟨d, hget, _⟩ := sound.descs head.toNat hlt
  have hfill := fillDesc_of_getElem? hget (allocate head.toNat) (UInt32.ofNat rxBufSize)
    vringDescFWrite
  obtain ⟨next, hpush⟩ := (sound.ordered.of_frame (fillDesc_frame hfill)).exists_pushAvail head
  refine ⟨hlt, d, _, next, hget, hfill, hpush, ?_⟩
  rw [refill, index_bufs sound hlt]
  exact bind_eq_ok.mpr ⟨_, rfl, bind_eq_ok.mpr ⟨_, hfill, hpush⟩⟩

theorem sound_recv {head : UInt16} {answer : Answer}
    (hcopied : s.receiving = some (.copied head answer))
    (hrefill : refill s.rings.queue s.rxBufs head = .ok q) :
    Sound size allocate (ring ++ [.push head]) done (given ++ [answer])
      { s with rings := { s.rings with queue := q }, receiving := none } := by
  obtain ⟨hlt, d, filled, next, hget, hfill, hpush, hok⟩ := refill_of_copied sound hcopied
  obtain rfl := Except.ok.inj (hok.symm.trans hrefill)
  have hheld : s.held = [head] := by
    rw [NetSystem.held, hcopied]
    rfl
  have hcurrent := sound.current
  rw [hcopied] at hcurrent
  obtain ⟨hcount, c, hnext, hhead, hdelivers⟩ := hcurrent
  have hpushed : pushed (ring ++ [.push head]) = pushed ring ++ [head] := by
    simp [RingEvent.pushed]
  have hfetched : fetched (ring ++ [.push head]) = fetched ring := by simp [RingEvent.fetched]
  have hpublished : published (ring ++ [.push head]) = published ring := by
    simp [RingEvent.published]
  have hpopped : popped (ring ++ [.push head]) = popped ring := by simp [RingEvent.popped]
  have hroom : (pushed ring).length < (popped ring).length + size.toNat := by
    have hlength := sound.length_places
    rw [hheld, List.length_singleton] at hlength
    omega
  constructor
  case ordered =>
    exact ordered_push (sound.ordered.of_frame (fillDesc_frame hfill)) hpush hroom
  case bufs => exact sound.bufs
  case descs =>
    show ∀ i < size.toNat, ∃ d, next.desc[i]? = some d ∧ _
    intro i hi
    obtain ⟨_, hkept, _⟩ := pushAvail_keeps hpush
    obtain ⟨d', _, rfl⟩ := fillDesc_eq hfill
    rw [hkept]
    by_cases heq : head.toNat = i
    · subst heq
      exact ⟨_, List.getElem?_set_self (List.getElem?_eq_some_iff.mp hget).1, rfl, toNat_rxBufSize⟩
    · rw [List.getElem?_set_ne heq]
      exact sound.descs i hi
  case elems =>
    rw [hpublished]
    exact sound.elems
  case lens => exact sound.lens
  case places =>
    refine List.Perm.trans ?_ sound.places
    change List.Perm (_ ++ s.rings.inFlight ++ _ ++ []) _
    rw [hpushed, hfetched, hpopped, hheld,
      List.drop_append_of_le_length sound.ordered.avail.consumed_prefix.length_le,
      List.perm_iff_count]
    intro other
    simp only [List.count_append, List.count_cons, List.count_nil]
    omega
  case frames =>
    rw [hpopped]
    exact sound.frames
  case current =>
    rw [hpopped, List.length_append]
    exact hcount
  case delivered =>
    have htake : done.take (given.length + 1) = done.take given.length ++ [c] := by
      rw [List.take_add_one, hnext]
      rfl
    rw [List.length_append, List.length_singleton, htake]
    exact List.rel_append sound.delivered (.cons hdelivers .nil)

end

end Driver

/-! ## The queue that `init` builds -/

section Init

variable {size : UInt16} {allocate : ℕ → UInt64}

/-- The table after `k` turns of the first loop. -/
structure Filled (size : UInt16) (allocate : ℕ → UInt64) (start : Virtqueue) (k : ℕ)
    (net : VirtioNet) : Prop where
  rx : net.rx = { start with desc := net.rx.desc }
  length_desc : net.rx.desc.length = size.toNat
  bufs : net.rxBufs = (List.range k).map fun i => ⟨allocate i, rxBufSize⟩
  descs : ∀ i < k, net.rx.desc[i]? = some (rxDesc (allocate i))

theorem returns_fillRx {start : Virtqueue} {k : ℕ} {net : VirtioNet} (mem : Memory)
    (hfilled : Filled size allocate start k net) (hk : k < size.toNat) :
    Returns (fillRx allocate (net, mem) k) fun next =>
      Filled size allocate start (k + 1) next.1 := by
  have hlt : k < net.rx.desc.length := hfilled.length_desc ▸ hk
  rw [fillRx, setIndex_of_lt _ hlt]
  refine ⟨_, rfl, ?_⟩
  constructor
  case rx =>
    show _ = { start with desc := net.rx.desc.set k _ }
    rw [hfilled.rx]
  case length_desc => exact (List.length_set).trans hfilled.length_desc
  case bufs =>
    show net.rxBufs ++ _ = _
    rw [hfilled.bufs, List.range_succ, List.map_append]
    rfl
  case descs =>
    intro i hi
    show (net.rx.desc.set k (rxDesc (allocate k)))[i]? = _
    by_cases heq : k = i
    · subst heq
      exact List.getElem?_set_self hlt
    · rw [List.getElem?_set_ne heq]
      exact hfilled.descs i (by omega)

theorem returns_fillAll {start : Virtqueue} (hstart : start.desc.length = size.toNat)
    (mem : Memory) :
    Returns ((List.range size.toNat).foldlM (fillRx allocate) (⟨start, []⟩, mem)) fun next =>
      Filled size allocate start size.toNat next.1 := by
  have hturn : ∀ k < size.toNat, ∀ state : VirtioNet × Memory,
      Filled size allocate start k state.1 →
        Returns (fillRx allocate state k) fun next => Filled size allocate start (k + 1) next.1 :=
    fun k hk state hfilled => returns_fillRx state.2 hfilled hk
  exact returns_foldlM_range hturn ⟨rfl, hstart, rfl, nofun⟩

theorem returns_pushAll {rx : Virtqueue} (hordered : Ordered size [] { queue := rx }) :
    Returns ((List.range size.toNat).foldlM (fun rx i => rx.pushAvail (UInt16.ofNat i)) rx)
      fun next =>
        Ordered size ((List.range size.toNat).map fun i => .push (UInt16.ofNat i))
          { queue := next } ∧ next.desc = rx.desc := by
  have hturn : ∀ k < size.toNat, ∀ q : Virtqueue,
      Ordered size ((List.range k).map fun i => .push (UInt16.ofNat i)) { queue := q } ∧
        q.desc = rx.desc →
      Returns (q.pushAvail (UInt16.ofNat k)) fun next =>
        Ordered size ((List.range (k + 1)).map fun i => .push (UInt16.ofNat i)) { queue := next } ∧
          next.desc = rx.desc := by
    intro k hk q hq
    obtain ⟨next, hpush⟩ := hq.1.exists_pushAvail (UInt16.ofNat k)
    have hlength : (pushed ((List.range k).map fun i => .push (UInt16.ofNat i))).length = k := by
      simp [pushed, RingEvent.pushed, List.flatMap_map]
    refine ⟨next, hpush, ?_, (pushAvail_keeps hpush).2.1.trans hq.2⟩
    rw [List.range_succ, List.map_append]
    exact ordered_push hq.1 hpush (by omega)
  exact returns_foldlM_range hturn ⟨hordered, rfl⟩

theorem sound_initRx (hsize : size.toNat.isPowerOfTwo) (mem : Memory) :
    Returns (initRx size allocate mem) fun start =>
      Sound size allocate (ringEvents size []) [] [] (.new start.1 start.2) := by
  obtain ⟨start, hnew⟩ := new_of_isPowerOfTwo hsize
  have hordered := ordered_new hnew
  have hlength : start.desc.length = size.toNat := by
    rw [Virtqueue.new, if_pos ⟨hsize, Nat.pos_of_isPowerOfTwo hsize⟩] at hnew
    cases hnew
    simp
  rw [initRx, hnew]
  apply (returns_fillAll hlength mem).bind
  rintro ⟨net, after⟩ hfilled
  have hready : Ordered size [] { queue := { net.rx with numFree := 0, freeHead := 0 } } := by
    rw [hfilled.rx]
    exact ⟨hordered.size_eq, hordered.power, hordered.avail, hordered.used, hordered.in_flight,
      hordered.outstanding⟩
  apply (returns_pushAll hready).bind
  rintro rx ⟨hpushed, hdesc⟩
  apply returns_pure
  have hring : ringEvents size [] = (List.range size.toNat).map fun i =>
      .push (UInt16.ofNat i) := by
    simp [ringEvents]
  constructor
  case ordered =>
    rw [hring]
    exact hpushed
  case bufs => exact hfilled.bufs
  case descs =>
    intro i hi
    show ∃ d, rx.desc[i]? = some d ∧ _
    rw [hdesc]
    exact ⟨_, hfilled.descs i hi, rfl, toNat_rxBufSize⟩
  case elems => simp [hring, published, RingEvent.published, NetSystem.new]
  case lens => simp
  case places =>
    have hheads : pushed (ringEvents size []) = indices size := by
      rw [hring, pushed, List.flatMap_map, indices, List.map_eq_flatMap]
      rfl
    have hnone : fetched (ringEvents size []) = [] := by
      simp [hring, fetched, RingEvent.fetched, List.flatMap_map]
    rw [hheads, hnone]
    simp [NetSystem.new, NetSystem.held]
  case frames => simp
  case current =>
    have hnone : popped (ringEvents size []) = [] := by
      simp [hring, popped, RingEvent.popped, List.flatMap_map]
    rw [hnone]
    rfl
  case delivered => exact .nil

end Init

/-! ## Runs -/

section Runs

variable {size : UInt16} {allocate : ℕ → UInt64}

/-- Every step keeps the invariant. -/
theorem sound_step (hapart : Apart size allocate) (events : List NetEvent) (s : NetSystem)
    (event : NetEvent) (next : NetSystem)
    (sound : Sound size allocate (ringEvents size events) (completions events) (answers events) s)
    (step : NetStep s event next) :
    Sound size allocate (ringEvents size (events ++ [event])) (completions (events ++ [event]))
      (answers (events ++ [event])) next := by
  rw [ringEvents_snoc, completions_snoc, answers_snoc]
  cases step with
  | empty _ hpop =>
    simpa [NetEvent.toRing, NetEvent.completion, NetEvent.answer] using sound_empty sound hpop
  | pop out hidle hpop =>
    simpa [NetEvent.toRing, NetEvent.completion, NetEvent.answer] using
      sound_pop sound out hidle hpop
  | copy hpopped hcopy =>
    simpa [NetEvent.toRing, NetEvent.completion, NetEvent.answer] using
      sound_copy sound hpopped hcopy
  | recv hcopied hrefill =>
    simpa [NetEvent.toRing, NetEvent.completion, NetEvent.answer] using
      sound_recv sound hcopied hrefill
  | fetch hfetch =>
    simpa [NetEvent.toRing, NetEvent.completion, NetEvent.answer] using sound_fetch sound hfetch
  | dma hhead hdesc hinside =>
    simpa [NetEvent.toRing, NetEvent.completion, NetEvent.answer] using
      sound_dma hapart sound hhead hdesc hinside
  | complete hhead hdesc hwriting hheader hframe hwrite =>
    simpa [NetEvent.toRing, NetEvent.completion, NetEvent.answer] using
      sound_complete sound hhead hdesc hwriting hheader hframe hwrite
  | publish hpending hpublish =>
    simpa [NetEvent.toRing, NetEvent.completion, NetEvent.answer] using
      sound_publish sound hpending hpublish

variable {ring : List RingEvent}

/-- What the device has not fetched, read off the ring. -/
theorem unfetched_eq {r : Rings} (ordered : Ordered size ring r) :
    unfetched r = (pushed ring).drop (fetched ring).length := by
  obtain rfl := ordered.size_eq
  obtain ⟨_, _, _, hnear⟩ := ordered.lengths
  have hfetch := ordered.in_flight
  have hpop := ordered.used.consumed_prefix.length_le
  exact ordered.avail.ringEntries_eq ofNat_fromLe_toLe_two ordered.power (by omega)

/-- What the driver has not popped, read off the ring. -/
theorem unpopped_eq {r : Rings} (ordered : Ordered size ring r) :
    unpopped r = (published ring).drop (popped ring).length := by
  obtain rfl := ordered.size_eq
  obtain ⟨_, _, hfetch, hnear⟩ := ordered.lengths
  have hflight := ordered.in_flight
  refine ordered.used.ringEntries_eq ?_ ordered.power (by omega)
  rintro ⟨id, len⟩
  have hid : (usedEntry (id, len)).take 4 = toLe 4 id.toNat := List.take_left' (length_toLe 4 _)
  have hlen : (usedEntry (id, len)).drop 4 = toLe 4 len.toNat := List.drop_left' (length_toLe 4 _)
  rw [hid, hlen, ofNat_fromLe_toLe_four, ofNat_fromLe_toLe_four]

/-- The completed descriptors, read off the ring. -/
theorem completed_eq {done : List Completion} {given : List Answer} {s : NetSystem}
    (sound : Sound size allocate ring done given s) :
    s.completed = (done.drop (popped ring).length).map Completion.head := by
  have hhead : Completion.head = (fun elem => elem.1.toUInt16) ∘ Completion.elem := by
    funext c
    exact (UInt16.toUInt16_toUInt32 c.head).symm
  have helems : (unpopped s.rings ++ s.rings.pending.toList) =
      (done.drop (popped ring).length).map Completion.elem := by
    rw [unpopped_eq sound.ordered, List.map_drop, sound.elems,
      List.drop_append_of_le_length sound.ordered.used.consumed_prefix.length_le]
  rw [NetSystem.completed, helems, List.map_map, ← hhead]

/-- The next thing that the driver does succeeds. -/
def Ready (s : NetSystem) : Prop :=
  match s.receiving with
  | none => ∃ result q, s.rings.queue.popUsed = .ok (result, q)
  | some (.popped id len out) => ∃ result, copyOut s.rxBufs s.mem id len out = .ok result
  | some (.copied head _) => ∃ q, refill s.rings.queue s.rxBufs head = .ok q

theorem ready_of_sound {done : List Completion} {given : List Answer} {s : NetSystem}
    (sound : Sound size allocate ring done given s) : Ready s := by
  unfold Ready
  split
  case h_1 =>
    obtain ⟨result, q, hpop, _⟩ := sound.ordered.exists_popUsed
    exact ⟨result, q, hpop⟩
  case h_2 hpopped =>
    obtain ⟨c, answer, hcopy, _⟩ := copyOut_of_popped sound hpopped
    exact ⟨_, hcopy⟩
  case h_3 hcopied =>
    obtain ⟨_, _, _, next, _, _, _, hrefill⟩ := refill_of_copied sound hcopied
    exact ⟨next, hrefill⟩

/-- **The receive queue.**  For every size and every run from the queue that `init` builds,
each index of the table is in one place: with the device, completed and not popped, or
held by the call in progress.  The available ring holds at most `size` heads, the calls of
`recv` return the frames in the order of their completion, each as much of it as fits, and
no access of the driver leaves its buffer. -/
theorem receive_conserves (size : UInt16) (hsize : size.toNat.isPowerOfTwo)
    (allocate : ℕ → UInt64) (hapart : Apart size allocate) (mem : Memory) :
    ∃ net after, initRx size allocate mem = .ok (net, after) ∧
      ∀ (events : List NetEvent) (s : NetSystem), Run NetStep (.new net after) events s →
        (s.posted ++ s.completed ++ s.held).Perm (indices size) ∧
        (s.posted ++ s.completed ++ s.held).Nodup ∧
        (unfetched s.rings).length ≤ size.toNat ∧
        List.Forall₂ Delivers ((completions events).take (answers events).length)
          (answers events) ∧
        Ready s := by
  obtain ⟨⟨net, after⟩, hinit, hstart⟩ := sound_initRx hsize mem
  refine ⟨net, after, hinit, ?_⟩
  intro events s run
  have sound := run.history_invariant
    (fun events s => Sound size allocate (ringEvents size events) (completions events)
      (answers events) s) hstart (sound_step hapart)
  have hplaces : (s.posted ++ s.completed ++ s.held).Perm (indices size) := by
    rw [NetSystem.posted, unfetched_eq sound.ordered, completed_eq sound]
    exact sound.places
  refine ⟨hplaces, hplaces.nodup_iff.mpr (nodup_indices size), ?_, sound.delivered,
    ready_of_sound sound⟩
  have hlength := hplaces.length_eq
  simp only [indices, NetSystem.posted, List.length_append, List.length_map, List.length_range]
    at hlength
  omega

end Runs

/-! ## Two buffers -/

/-- The buffers at 0x1000 and 0x2000. -/
def twoBuffers (i : ℕ) : UInt64 := if i = 0 then 0x1000 else 0x2000

/-- The queue of these two. -/
def netOfTwo (avail used : List UInt8) (lastUsedIdx : UInt16) : VirtioNet where
  rx := ⟨2, [rxDesc 0x1000, rxDesc 0x2000], avail, used, 0, 0, lastUsedIdx⟩
  rxBufs := [⟨0x1000, rxBufSize⟩, ⟨0x2000, rxBufSize⟩]

def zeroedBuffers : Memory :=
  (Memory.store (fun _ => 0) 0x1000 (List.replicate rxBufSize 0)).store 0x2000
    (List.replicate rxBufSize 0)

theorem apart_twoBuffers : Apart 2 twoBuffers := by
  intro i j hi hj hne
  have htwo : (2 : UInt16).toNat = 2 := rfl
  have hsize : rxBufSize = 1526 := rfl
  obtain ⟨rfl, hj⟩ | ⟨hi, rfl⟩ : i = 0 ∧ j ≠ 0 ∨ i ≠ 0 ∧ j = 0 := by omega
  · left
    rw [twoBuffers, twoBuffers, if_pos rfl, if_neg hj, hsize]
    decide
  · right
    rw [twoBuffers, twoBuffers, if_pos rfl, if_neg hi, hsize]
    decide

/-- The device takes both buffers and fills the second one first. -/
theorem receive_conserves_twoBuffers :
    ∃ net after events s, initRx 2 twoBuffers (fun _ => 0) = .ok (net, after) ∧
      Run NetStep (.new net after) events s ∧
      answers events = [⟨[9, 9, 9], 2, [0xab, 0xcd, 9]⟩] ∧
      s.rings.inFlight = [0] ∧ unfetched s.rings = [1] ∧
      (s.posted ++ s.completed ++ s.held).Perm (indices 2) := by
  let avail₁ : List UInt8 := [0, 0, 2, 0, 0, 0, 1, 0, 0, 0]
  let avail₂ : List UInt8 := [0, 0, 3, 0, 1, 0, 1, 0, 0, 0]
  let used₀ : List UInt8 := List.replicate 22 0
  let used₁ : List UInt8 := [0, 0, 0, 0, 1, 0, 0, 0, 14, 0, 0, 0] ++ List.replicate 10 0
  let used₂ : List UInt8 := [0, 0, 1, 0, 1, 0, 0, 0, 14, 0, 0, 0] ++ List.replicate 10 0
  let system (avail used : List UInt8) (lastUsedIdx cursor : UInt16) (inFlight : List UInt16)
      (pending : Option (UInt32 × UInt32)) (mem : Memory) (receiving : Option Receiving) :
      NetSystem :=
    ⟨⟨(netOfTwo avail used lastUsedIdx).rx, cursor, inFlight, pending⟩,
      (netOfTwo avail used lastUsedIdx).rxBufs, mem, receiving⟩
  let mem₁ := zeroedBuffers.store (0x2000 + 12) [0xab, 0xcd]
  let answer : Answer := ⟨[9, 9, 9], 2, [0xab, 0xcd, 9]⟩
  have hinit : initRx 2 twoBuffers (fun _ => 0) = .ok (netOfTwo avail₁ used₀ 0, zeroedBuffers) :=
    rfl
  have hfetch : NetStep (.new (netOfTwo avail₁ used₀ 0) zeroedBuffers) (.fetch 0)
      (system avail₁ used₀ 0 1 [0] none zeroedBuffers none) := .fetch (by decide +kernel)
  have hfetch' : NetStep (system avail₁ used₀ 0 1 [0] none zeroedBuffers none) (.fetch 1)
      (system avail₁ used₀ 0 2 [1, 0] none zeroedBuffers none) := .fetch (by decide +kernel)
  have hdma : NetStep (system avail₁ used₀ 0 2 [1, 0] none zeroedBuffers none)
      (.dma 1 12 [0xab, 0xcd]) (system avail₁ used₀ 0 2 [1, 0] none mem₁ none) :=
    .dma (d := rxDesc 0x2000) (by decide +kernel) rfl (by decide +kernel)
  have hcomplete : NetStep (system avail₁ used₀ 0 2 [1, 0] none mem₁ none)
      (.complete ⟨1, 14, mem₁.bytesFrom 0x2000 rxBufSize⟩)
      (system avail₁ used₁ 0 2 [0] (some (1, 14)) mem₁ none) :=
    .complete (d := rxDesc 0x2000) (by decide +kernel) rfl rfl
      (by decide +kernel) (by decide +kernel) (by decide +kernel)
  have hpublish : NetStep (system avail₁ used₁ 0 2 [0] (some (1, 14)) mem₁ none) (.publish (1, 14))
      (system avail₁ used₂ 0 2 [0] none mem₁ none) := .publish rfl rfl
  have hpop : NetStep (system avail₁ used₂ 0 2 [0] none mem₁ none) (.pop (1, 14))
      (system avail₁ used₂ 1 2 [0] none mem₁ (some (.popped 1 14 [9, 9, 9]))) :=
    .pop [9, 9, 9] rfl (by decide +kernel)
  have hcopy : NetStep (system avail₁ used₂ 1 2 [0] none mem₁ (some (.popped 1 14 [9, 9, 9])))
      .copy (system avail₁ used₂ 1 2 [0] none mem₁ (some (.copied 1 answer))) :=
    .copy rfl (by decide +kernel)
  have hrecv : NetStep (system avail₁ used₂ 1 2 [0] none mem₁ (some (.copied 1 answer)))
      (.recv 1 answer) (system avail₂ used₂ 1 2 [0] none mem₁ none) :=
    .recv rfl (by decide +kernel)
  have hrun := (((((((Run.nil.snoc hfetch).snoc hfetch').snoc hdma).snoc hcomplete).snoc
    hpublish).snoc hpop).snoc hcopy).snoc hrecv
  obtain ⟨net, after, hstart, hall⟩ :=
    receive_conserves 2 (by decide) twoBuffers apart_twoBuffers (fun _ => 0)
  obtain ⟨rfl, rfl⟩ := Prod.mk.inj (Except.ok.inj (hstart.symm.trans hinit))
  exact ⟨_, _, _, _, hinit, hrun, rfl, rfl, by decide +kernel, (hall _ _ hrun).1⟩

end Hyperion.Virtio.Net
