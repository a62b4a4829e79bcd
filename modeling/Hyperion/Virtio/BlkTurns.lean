import Hyperion.Virtio.BlkSections

/-!
# Requests that wait in the order of their completions

`do_request` ignores the id that `wait_used` returns and frees its own chain
whatever completion it popped.  Where every call that waits is the one whose
completion comes next, that is harmless: `InTurn` says so of a step, and in a run
of such steps every call gets what it waited for.  Two calls whose requests the
device completes in the other order are enough to break it.

`Routed` ties the ghost lists of a `Disk` to the histories of the rings and to the
descriptor table; `Attended` ties them to the calls and to the status bytes.
-/

namespace Hyperion.Virtio.Blk

open Hyperion.Lib Virtqueue

/-! ## Invariants -/

/-- The request and the chain of a call that has been pushed and not yet freed. -/
def Point.outstanding : Point → Option (Request × UInt16)
  | .submitted req head | .waiting req head => some (req, head)
  | _ => none

/-- The chains that are not back on the free list. -/
def Disk.transfers (disk : Disk) : List Transfer := disk.owned ++ disk.completed

/-- The transfer is the request of a call: three descriptors, the last of which
points at the status byte of that call. -/
def Prepared (disk : Disk) (t : Transfer) : Prop :=
  ∃ req a b, (disk.calls t.caller).outstanding = some (req, t.head) ∧ t.chain = [t.head, a, b] ∧
    (disk.queue.desc[b.toNat]?).map Desc.addr = some req.statusAddr

/-- The rings carry the transfers, and the table holds their chains. -/
structure Routed (size : UInt16) (events : List RingEvent) (disk : Disk) : Prop where
  ordered : Ordered size events disk.rings
  idle : disk.rings.pending = none
  unpopped : (published events).map Prod.fst =
    (popped events).map Prod.fst ++ disk.completed.map fun t => t.head.toUInt32
  flight : (disk.owned.map Transfer.head).Perm
    (disk.rings.inFlight ++ (pushed events).drop (fetched events).length)
  chains : Owned disk.queue disk.queue.freeList (disk.transfers.map Transfer.chain)

/-- What holds of a call at each point. -/
def Consistent (disk : Disk) (caller : ℕ) : Point → Prop
  | .start => disk.answers caller = none
  | .waiting _ _ => disk.lock = some caller
  | .freed _ head id => id = head.toUInt32 ∧ (disk.answers caller).isSome
  | .returned head id status => id = head.toUInt32 ∧ disk.answers caller = some status
  | .submitted _ _ | .full => True

/-- Every transfer belongs to one call, and the device answers into the box of that
call. -/
structure Attended (disk : Disk) : Prop where
  points : ∀ caller, Consistent disk caller (disk.calls caller)
  prepared : ∀ t ∈ disk.transfers, Prepared disk t
  callers : (disk.transfers.map Transfer.caller).Nodup
  live : ∀ caller, (disk.calls caller).outstanding ≠ none →
    ∃ t ∈ disk.transfers, t.caller = caller
  boxes : ∀ caller other a, (disk.calls caller).box = some a → (disk.calls other).box = some a →
    caller = other
  stored : ∀ caller a v, (disk.calls caller).box = some a → disk.answers caller = some v →
    disk.memory a = v
  answered : ∀ t ∈ disk.completed, (disk.answers t.caller).isSome
  /-- the call that holds the lock is the one whose completion comes next -/
  turn : ∀ caller, disk.lock = some caller → ∀ t, disk.completed.head? = some t →
    t.caller = caller

/-- A call takes the lock for its wait only when the oldest completion, if there is
one, is its own; and while it spins on an empty used ring, the next request the
device completes is its own. -/
def InTurn (disk : Disk) : Event → Prop
  | .wait caller => ∀ t, disk.completed.head? = some t → t.caller = caller
  | .complete head => disk.completed = [] → ∀ caller, disk.lock = some caller →
      ∃ req, disk.calls caller = .waiting req head
  | _ => True

/-! ## Reading the invariants -/

section Reading

variable {size : UInt16} {events : List RingEvent} {disk : Disk}

@[simp] theorem goto_calls (disk : Disk) (caller other : ℕ) (point : Point) :
    (disk.goto caller point).calls other = if other = caller then point else disk.calls other :=
  Function.update_apply ..

/-- A call that moves on to a point that looks the same looks the same to everybody. -/
theorem goto_congr {α : Type*} (f : Point → α) {caller : ℕ} {point : Point}
    (hpoint : f point = f (disk.calls caller)) (other : ℕ) :
    f ((disk.goto caller point).calls other) = f (disk.calls other) := by
  rw [goto_calls]
  split
  case isTrue heq => rw [heq, hpoint]
  case isFalse => rfl

/-- What holds of a call depends on its answer and, while it waits, on the lock. -/
theorem Consistent.congr {next : Disk} {caller : ℕ} {point : Point}
    (hpoint : Consistent disk caller point) (hanswers : next.answers caller = disk.answers caller)
    (hlock : disk.lock = some caller → next.lock = some caller) :
    Consistent next caller point := by
  cases point with
  | waiting _ _ => exact hlock hpoint
  | start | freed _ _ _ | returned _ _ _ => simpa only [Consistent, hanswers] using hpoint
  | submitted _ _ | full => trivial

theorem Point.box_of_outstanding {point : Point} {req : Request} {head : UInt16}
    (hout : point.outstanding = some (req, head)) : point.box = some req.statusAddr := by
  cases point with
  | submitted _ _ | waiting _ _ =>
    cases hout
    rfl
  | start | freed _ _ _ | returned _ _ _ | full => cases hout

section

variable (routed : Routed size events disk)

include routed

/-- What is pushed and not popped is a transfer. -/
theorem Routed.length_transfers :
    (pushed events).length = (popped events).length + disk.transfers.length := by
  have hunpopped := congrArg List.length routed.unpopped
  have hflight := routed.flight.length_eq
  have hserved := routed.ordered.in_flight
  have hle := routed.ordered.avail.consumed_prefix.length_le
  rw [routed.idle] at hserved
  simp only [List.length_map, List.length_append, List.length_drop, Option.toList_none,
    List.length_nil] at hunpopped hflight hserved
  rw [Disk.transfers, List.length_append]
  omega

theorem Routed.chain_disjoint {t : Transfer} (ht : t ∈ disk.transfers) {i : UInt16}
    (hi : i ∈ t.chain) : i ∉ disk.queue.freeList := by
  intro hfree
  have hnodup := List.nodup_append.mp routed.chains.nodup
  exact hnodup.2.2 i hfree i (List.mem_flatten_of_mem (List.mem_map_of_mem ht) hi) rfl

/-- Two transfers share no descriptor. -/
theorem Routed.disjoint_chains :
    disk.transfers.Pairwise fun t t' => t.chain.Disjoint t'.chain := by
  have hnodup := (List.nodup_append.mp routed.chains.nodup).2.1
  exact List.pairwise_map.mp (List.nodup_flatten.mp hnodup).2

theorem Routed.eq_of_mem_chain {t t' : Transfer} {i : UInt16} (ht : t ∈ disk.transfers)
    (ht' : t' ∈ disk.transfers) (hi : i ∈ t.chain) (hi' : i ∈ t'.chain) :
    t = t' := by
  by_contra hne
  have hsymm : Std.Symm fun t t' : Transfer => t.chain.Disjoint t'.chain :=
    ⟨fun _ _ hdisjoint => hdisjoint.symm⟩
  exact routed.disjoint_chains.forall ht ht' hne hi hi'

end

/-- A call with nothing outstanding has no transfer. -/
theorem Attended.caller_ne (attended : Attended disk) {caller : ℕ}
    (hcall : (disk.calls caller).outstanding = none) : ∀ t ∈ disk.transfers, t.caller ≠ caller := by
  intro t ht heq
  obtain ⟨req, _, _, hout, _⟩ := attended.prepared t ht
  rw [heq, hcall] at hout
  cases hout

theorem Prepared.head_mem {t : Transfer} (hprepared : Prepared disk t) : t.head ∈ t.chain := by
  obtain ⟨req, a, b, _, hchain, _⟩ := hprepared
  simp [hchain]

/-- The device answers into the box of the call whose request it completes. -/
theorem statusAddr_eq (routed : Routed size events disk) {t : Transfer}
    (ht : t ∈ disk.transfers) {req : Request} {a b : UInt16} (hchain : t.chain = [t.head, a, b])
    (haddr : (disk.queue.desc[b.toNat]?).map Desc.addr = some req.statusAddr) :
    disk.statusAddr t.head = some req.statusAddr := by
  have hmem : t.head :: [a, b] ∈ disk.transfers.map Transfer.chain :=
    hchain ▸ List.mem_map_of_mem ht
  rw [Disk.statusAddr, routed.chains.chainFrom_eq t.head [a, b] hmem]
  exact haddr

/-- A transfer stays prepared while its call is outstanding and nobody writes to its
descriptors. -/
theorem Prepared.congr {next : Disk} {t : Transfer} (hprepared : Prepared disk t)
    (hcall : (next.calls t.caller).outstanding = (disk.calls t.caller).outstanding)
    (hdesc : ∀ i ∈ t.chain, next.queue.desc[i.toNat]? = disk.queue.desc[i.toNat]?) :
    Prepared next t := by
  obtain ⟨req, a, b, hout, hchain, haddr⟩ := hprepared
  refine ⟨req, a, b, hcall.trans hout, hchain, ?_⟩
  rw [hdesc b (by simp [hchain])]
  exact haddr

end Reading

/-! ## The first section -/

section Submit

variable {size : UInt16} {events : List RingEvent} {disk : Disk} {caller : ℕ} {req : Request}
  {head : UInt16} {q : Virtqueue}

/-- The first section adds one chain of three descriptors, and writes to no other
descriptor in use. -/
theorem submit_transfer (routed : Routed size events disk)
    (hsubmit : submit disk.queue req = .ok (some head, q)) :
    ∃ a b, q.chainFrom head = [head, a, b] ∧
      Owned q q.freeList ([head, a, b] :: disk.transfers.map Transfer.chain) ∧
      (q.desc[b.toNat]?).map Desc.addr = some req.statusAddr ∧
      (∀ i, i ∉ disk.queue.freeList → q.desc[i.toNat]? = disk.queue.desc[i.toNat]?) ∧
      Ordered size (events ++ [.push head]) { disk.rings with queue := q } := by
  obtain ⟨a, b, filled, hpush, frame, howned, haddr⟩ := submit_of_owned routed.chains hsubmit
  obtain ⟨hsize, hdesc, hhead, hcount⟩ := pushAvail_keeps hpush
  have hownedQ := howned.of_desc_eq hsize hdesc hhead hcount
  have hroom : (pushed events).length < (popped events).length + size.toNat := by
    have hchains := howned.length_chains_le
    rw [frame.size_eq, routed.ordered.size_eq] at hchains
    rw [routed.length_transfers]
    simp only [List.length_cons, List.length_map] at hchains
    omega
  refine ⟨a, b, hownedQ.chainFrom_eq head [a, b] (by simp), ?_, by rwa [hdesc], ?_, ?_⟩
  · rw [hownedQ.free_eq]
    exact hownedQ
  · intro i hi
    rw [hdesc]
    exact frame.desc_eq i hi
  · exact ordered_push (routed.ordered.of_frame frame) hpush hroom

theorem transfers_afterSubmit (disk : Disk) (caller : ℕ) (req : Request) (head : UInt16)
    (q : Virtqueue) :
    (disk.afterSubmit caller req head q).transfers.Perm
      (⟨caller, head, q.chainFrom head⟩ :: disk.transfers) := by
  show (disk.owned ++ [_] ++ disk.completed).Perm _
  rw [List.append_assoc]
  exact List.perm_middle

theorem routed_afterSubmit (routed : Routed size events disk)
    (hsubmit : submit disk.queue req = .ok (some head, q)) :
    Routed size (events ++ [.push head]) (disk.afterSubmit caller req head q) := by
  obtain ⟨a, b, hchain, howned, _, _, hordered⟩ := submit_transfer routed hsubmit
  refine ⟨hordered, routed.idle, ?_, ?_, ?_⟩
  · simp only [published_snoc, popped_snoc, RingEvent.published, RingEvent.popped, List.append_nil]
    exact routed.unpopped
  · have hle := routed.ordered.avail.consumed_prefix.length_le
    have hdrop : (pushed events ++ [head]).drop (fetched events).length =
        (pushed events).drop (fetched events).length ++ [head] :=
      List.drop_append_of_le_length hle
    simp only [pushed_snoc, fetched_snoc, RingEvent.pushed, RingEvent.fetched, List.append_nil,
      hdrop]
    rw [← List.append_assoc]
    simpa [Disk.afterSubmit] using routed.flight.append_right [head]
  · apply howned.of_perm
    have hperm := (transfers_afterSubmit disk caller req head q).map Transfer.chain
    simpa [hchain] using hperm.symm

theorem attended_afterSubmit (routed : Routed size events disk) (attended : Attended disk)
    (hcall : disk.calls caller = .start) (hlock : disk.lock = none)
    (hbox : ∀ other, (disk.calls other).box ≠ some req.statusAddr)
    (hsubmit : submit disk.queue req = .ok (some head, q)) :
    Attended (disk.afterSubmit caller req head q) := by
  obtain ⟨a, b, hchain, _, haddr, hdesc, _⟩ := submit_transfer routed hsubmit
  have hperm := transfers_afterSubmit disk caller req head q
  have hcalls : ∀ other, (disk.afterSubmit caller req head q).calls other =
      if other = caller then .submitted req head else disk.calls other :=
    fun other => goto_calls disk caller other _
  have hother := attended.caller_ne (by rw [hcall]; rfl : (disk.calls caller).outstanding = none)
  have hfresh : disk.answers caller = none := by
    have hpoint := attended.points caller
    rwa [hcall] at hpoint
  constructor
  case points =>
    intro other
    rw [hcalls]
    split
    · trivial
    · exact attended.points other
  case prepared =>
    intro t ht
    rcases List.mem_cons.mp (hperm.mem_iff.mp ht) with rfl | ht
    · exact ⟨req, a, b, by simp [hcalls, Point.outstanding], hchain, haddr⟩
    · apply (attended.prepared t ht).congr
      · rw [hcalls, if_neg (hother t ht)]
      · exact fun i hi => hdesc i (routed.chain_disjoint ht hi)
  case callers =>
    refine (hperm.map Transfer.caller).nodup_iff.mpr (List.nodup_cons.mpr ⟨?_, attended.callers⟩)
    rintro hmem
    obtain ⟨t, ht, heq⟩ := List.mem_map.mp hmem
    exact hother t ht heq
  case live =>
    intro other hout
    rw [hcalls] at hout
    split at hout
    case isTrue heq => exact ⟨_, hperm.mem_iff.mpr List.mem_cons_self, heq.symm⟩
    case isFalse =>
      obtain ⟨t, ht, heq⟩ := attended.live other hout
      exact ⟨t, hperm.mem_iff.mpr (List.mem_cons_of_mem _ ht), heq⟩
  case boxes =>
    -- the new box is none of the old ones
    intro other other' a hbox₁ hbox₂
    rw [hcalls] at hbox₁ hbox₂
    split at hbox₁ <;> split at hbox₂
    case isTrue.isTrue heq heq' => rw [heq, heq']
    case isTrue.isFalse => exact absurd (hbox₂.trans hbox₁.symm) (hbox _)
    case isFalse.isTrue => exact absurd (hbox₁.trans hbox₂.symm) (hbox _)
    case isFalse.isFalse => exact attended.boxes other other' a hbox₁ hbox₂
  case stored =>
    intro other a v hbox' hanswer
    rw [hcalls] at hbox'
    split at hbox'
    case isTrue heq =>
      rw [heq] at hanswer
      cases hfresh.symm.trans hanswer
    case isFalse =>
      have hne : a ≠ req.statusAddr := fun heq => hbox other (heq ▸ hbox')
      exact (Function.update_of_ne hne _ _).trans (attended.stored other a v hbox' hanswer)
  case answered => exact attended.answered
  case turn =>
    intro other hlock'
    cases hlock.symm.trans hlock'

end Submit

/-! ## The second section -/

section Wait

variable {size : UInt16} {events : List RingEvent} {disk : Disk} {caller : ℕ} {req : Request}
  {head : UInt16} {q : Virtqueue}

theorem attended_wait (attended : Attended disk)
    (hcall : disk.calls caller = .submitted req head) (hlock : disk.lock = none)
    (hturn : ∀ t, disk.completed.head? = some t → t.caller = caller) :
    Attended { disk.goto caller (.waiting req head) with lock := some caller } := by
  -- the call goes on with the same request
  have hout : ∀ other, ((disk.goto caller (.waiting req head)).calls other).outstanding =
      (disk.calls other).outstanding :=
    goto_congr Point.outstanding (by rw [hcall]; rfl)
  have hbox : ∀ other, ((disk.goto caller (.waiting req head)).calls other).box =
      (disk.calls other).box :=
    goto_congr Point.box (by rw [hcall]; rfl)
  constructor
  case points =>
    intro other
    show Consistent _ other ((disk.goto caller _).calls other)
    rw [goto_calls]
    split
    case isTrue heq => exact congrArg some heq.symm
    case isFalse =>
      exact (attended.points other).congr rfl fun hheld => nomatch hlock.symm.trans hheld
  case prepared =>
    intro t ht
    exact (attended.prepared t ht).congr (hout t.caller) fun _ _ => rfl
  case callers => exact attended.callers
  case live => exact fun other hlive => attended.live other (hout other ▸ hlive)
  case boxes =>
    intro other other' a hbox₁ hbox₂
    exact attended.boxes other other' a ((hbox other).symm.trans hbox₁)
      ((hbox other').symm.trans hbox₂)
  case stored =>
    intro other a v hbox₁ hanswer
    exact attended.stored other a v ((hbox other).symm.trans hbox₁) hanswer
  case answered => exact attended.answered
  case turn =>
    intro other hlock' t ht
    rw [← Option.some.inj hlock']
    exact hturn t ht

variable {popped : Virtqueue}

/-- The waiting call pops the completion of its own transfer. -/
theorem popUsed_own (routed : Routed size events disk) (attended : Attended disk)
    (hcall : disk.calls caller = .waiting req head) {id len : UInt32}
    (hpop : disk.queue.popUsed = .ok (some (id, len), popped)) :
    ∃ t, disk.completed = t :: disk.completed.tail ∧ t.caller = caller ∧ t.head = head ∧
      id = head.toUInt32 := by
  obtain ⟨rest, hrest⟩ := (ordered_pop routed.ordered hpop).used.consumed_prefix
  have hids := congrArg (List.map Prod.fst) hrest
  simp only [popped_snoc, published_snoc, RingEvent.popped, RingEvent.published,
    Option.toList_some, List.append_nil, List.map_append, routed.unpopped,
    List.append_assoc, List.append_cancel_left_eq] at hids
  cases hcompleted : disk.completed with
  | nil =>
    rw [hcompleted] at hids
    simp at hids
  | cons t rest' =>
    rw [hcompleted] at hids
    have hlock : disk.lock = some caller := by
      have hpoint := attended.points caller
      rwa [hcall] at hpoint
    have hcaller : t.caller = caller := attended.turn caller hlock t (by rw [hcompleted]; rfl)
    have hmem : t ∈ disk.transfers := List.mem_append_right _ (by simp [hcompleted])
    obtain ⟨req', _, _, hout, _⟩ := attended.prepared t hmem
    rw [hcaller, hcall] at hout
    obtain ⟨_, hhead⟩ : req = req' ∧ head = t.head := by simpa [Point.outstanding] using hout
    refine ⟨t, rfl, hcaller, hhead.symm, ?_⟩
    rw [hhead]
    simpa using (List.cons.inj hids).1

/-- The transfer of the waiting call leaves the list. -/
theorem transfers_afterFree {t : Transfer} (hcompleted : disk.completed = t :: disk.completed.tail)
    (caller : ℕ) (req : Request) (head : UInt16) (id : UInt32) (q : Virtqueue) :
    disk.transfers.Perm (t :: (disk.afterFree caller req head id q).transfers) := by
  show (disk.owned ++ disk.completed).Perm (t :: (disk.owned ++ disk.completed.tail))
  rw [hcompleted]
  exact List.perm_middle

/-- The second section puts the three descriptors of its call back on the free list
and writes to no other descriptor in use. -/
theorem free_transfer (routed : Routed size events disk) (attended : Attended disk)
    (hcall : disk.calls caller = .waiting req head) {id len : UInt32}
    (hpop : disk.queue.popUsed = .ok (some (id, len), popped))
    (hfree : popped.freeChain head popped.size.toNat = .ok q) :
    Owned q q.freeList ((disk.afterFree caller req head id q).transfers.map Transfer.chain) ∧
      (∀ t ∈ (disk.afterFree caller req head id q).transfers, ∀ i ∈ t.chain,
        q.desc[i.toNat]? = disk.queue.desc[i.toNat]?) ∧
      Ordered size (events ++ [.pop (some (id, len))]) { disk.rings with queue := q } := by
  obtain ⟨t, hcompleted, hcaller, hhead, _⟩ := popUsed_own routed attended hcall hpop
  have hperm := transfers_afterFree hcompleted caller req head id q
  have hmem : t ∈ disk.transfers := hperm.mem_iff.mpr List.mem_cons_self
  obtain ⟨_, a, b, _, hchain, _⟩ := attended.prepared t hmem
  rw [hhead] at hchain
  have hordered := ordered_pop routed.ordered hpop
  obtain ⟨lastUsedIdx, rfl⟩ := popUsed_keeps hpop
  have howned : Owned { disk.queue with lastUsedIdx } _ _ :=
    (routed.chains.of_perm (hperm.map Transfer.chain)).of_desc_eq rfl rfl rfl rfl
  rw [List.map_cons, hchain] at howned
  obtain ⟨frame, hownedQ⟩ := freeChain_section howned hfree
  refine ⟨by rwa [hownedQ.free_eq], ?_, ?_⟩
  · -- the chains are disjoint, so no other one contains a descriptor of `t`
    intro t' ht' i hi
    have hmem' : t' ∈ disk.transfers := hperm.mem_iff.mpr (List.mem_cons_of_mem _ ht')
    have hne : t' ≠ t := by
      rintro rfl
      have hnodup := (hperm.map Transfer.caller).nodup_iff.mp attended.callers
      exact (List.nodup_cons.mp hnodup).1 (List.mem_map_of_mem ht')
    rw [frame.desc_eq i]
    intro hi'
    rw [← hchain] at hi'
    exact hne (routed.eq_of_mem_chain hmem' hmem hi hi')
  · exact hordered.of_frame frame

theorem routed_afterFree (routed : Routed size events disk) (attended : Attended disk)
    (hcall : disk.calls caller = .waiting req head) {id len : UInt32}
    (hpop : disk.queue.popUsed = .ok (some (id, len), popped))
    (hfree : popped.freeChain head popped.size.toNat = .ok q) :
    Routed size (events ++ [.pop (some (id, len))]) (disk.afterFree caller req head id q) := by
  obtain ⟨howned, _, hordered⟩ := free_transfer routed attended hcall hpop hfree
  obtain ⟨t, hcompleted, _, hhead, hid⟩ := popUsed_own routed attended hcall hpop
  refine ⟨hordered, routed.idle, ?_, ?_, howned⟩
  · have hunpopped := routed.unpopped
    rw [hcompleted] at hunpopped
    simp only [published_snoc, popped_snoc, RingEvent.published, RingEvent.popped,
      Option.toList_some, List.append_nil, List.map_append, List.append_assoc, hunpopped]
    simp [Disk.afterFree, hid, hhead]
  · simp only [pushed_snoc, fetched_snoc, RingEvent.pushed, RingEvent.fetched, List.append_nil]
    exact routed.flight

theorem attended_afterFree (routed : Routed size events disk) (attended : Attended disk)
    (hcall : disk.calls caller = .waiting req head) {id len : UInt32}
    (hpop : disk.queue.popUsed = .ok (some (id, len), popped))
    (hfree : popped.freeChain head popped.size.toNat = .ok q) :
    Attended (disk.afterFree caller req head id q) := by
  obtain ⟨_, hdesc, _⟩ := free_transfer routed attended hcall hpop hfree
  obtain ⟨t, hcompleted, hcaller, _, hid⟩ := popUsed_own routed attended hcall hpop
  have hperm := transfers_afterFree hcompleted caller req head id q
  have hnodup := (hperm.map Transfer.caller).nodup_iff.mp attended.callers
  rw [List.map_cons, List.nodup_cons, hcaller] at hnodup
  have hother : ∀ t' ∈ (disk.afterFree caller req head id q).transfers, t'.caller ≠ caller :=
    fun t' ht' heq => hnodup.1 (heq ▸ List.mem_map_of_mem ht')
  have hcalls : ∀ other, (disk.afterFree caller req head id q).calls other =
      if other = caller then .freed req head id else disk.calls other :=
    fun other => goto_calls disk caller other _
  have hbox : ∀ other, ((disk.afterFree caller req head id q).calls other).box =
      (disk.calls other).box :=
    goto_congr Point.box (by rw [hcall]; rfl)
  have hlock : disk.lock = some caller := by
    have hpoint := attended.points caller
    rwa [hcall] at hpoint
  have hanswered : (disk.answers caller).isSome :=
    hcaller ▸ attended.answered t (by rw [hcompleted]; exact List.mem_cons_self)
  constructor
  case points =>
    intro other
    rw [hcalls]
    split
    case isTrue heq => exact ⟨hid, heq ▸ hanswered⟩
    case isFalse hne =>
      -- only one call waits
      exact (attended.points other).congr rfl fun hheld =>
        absurd (Option.some.inj (hheld.symm.trans hlock)) hne
  case prepared =>
    intro t' ht'
    have hmem : t' ∈ disk.transfers := hperm.mem_iff.mpr (List.mem_cons_of_mem _ ht')
    apply (attended.prepared t' hmem).congr
    · rw [hcalls, if_neg (hother t' ht')]
    · exact hdesc t' ht'
  case callers => exact hnodup.2
  case live =>
    intro other hout
    rw [hcalls] at hout
    split at hout
    case isTrue => exact absurd rfl hout
    case isFalse hne =>
      obtain ⟨t', ht', heq⟩ := attended.live other hout
      rcases List.mem_cons.mp (hperm.mem_iff.mp ht') with rfl | ht'
      · exact absurd (heq.symm.trans hcaller) hne
      · exact ⟨t', ht', heq⟩
  case boxes =>
    intro other other' a hbox₁ hbox₂
    exact attended.boxes other other' a ((hbox other).symm.trans hbox₁)
      ((hbox other').symm.trans hbox₂)
  case stored =>
    intro other a v hbox₁ hanswer
    exact attended.stored other a v ((hbox other).symm.trans hbox₁) hanswer
  case answered => exact fun t' ht' => attended.answered t' (List.mem_of_mem_tail ht')
  case turn =>
    intro other hlock'
    cases hlock'

end Wait

/-! ## Leaving a call -/

section Leave

variable {size : UInt16} {events : List RingEvent} {disk : Disk} {caller : ℕ}

/-- A call without a transfer that returns changes nothing for the others. -/
theorem attended_leave (attended : Attended disk) {point : Point}
    (hcall : (disk.calls caller).outstanding = none) (hpoint : Consistent disk caller point)
    (hout : point.outstanding = none) (hbox : point.box = none) :
    Attended (disk.goto caller point) := by
  have hother := attended.caller_ne hcall
  constructor
  case points =>
    intro other
    rw [goto_calls]
    split
    case isTrue heq =>
      rw [heq]
      exact hpoint
    case isFalse => exact attended.points other
  case prepared =>
    intro t ht
    apply (attended.prepared t ht).congr
    · rw [goto_calls, if_neg (hother t ht)]
    · exact fun _ _ => rfl
  case callers => exact attended.callers
  case live =>
    intro other hlive
    rw [goto_calls] at hlive
    split at hlive
    case isTrue => exact absurd hout hlive
    case isFalse => exact attended.live other hlive
  case boxes =>
    intro other other' a hbox₁ hbox₂
    rw [goto_calls] at hbox₁ hbox₂
    split at hbox₁ <;> split at hbox₂
    case isTrue.isTrue heq heq' => rw [heq, heq']
    case isTrue.isFalse => cases hbox.symm.trans hbox₁
    case isFalse.isTrue => cases hbox.symm.trans hbox₂
    case isFalse.isFalse => exact attended.boxes other other' a hbox₁ hbox₂
  case stored =>
    intro other a v hbox₁ hanswer
    rw [goto_calls] at hbox₁
    split at hbox₁
    case isTrue => cases hbox.symm.trans hbox₁
    case isFalse => exact attended.stored other a v hbox₁ hanswer
  case answered => exact attended.answered
  case turn => exact attended.turn

theorem attended_full (attended : Attended disk) (hcall : disk.calls caller = .start) :
    Attended (disk.goto caller .full) :=
  attended_leave attended (by rw [hcall]; rfl) trivial rfl rfl

theorem attended_examine (attended : Attended disk) {req : Request} {head : UInt16} {id : UInt32}
    (hcall : disk.calls caller = .freed req head id) :
    Attended (disk.goto caller (.returned head id (disk.memory req.statusAddr))) := by
  have hpoint := attended.points caller
  rw [hcall] at hpoint
  obtain ⟨hid, hanswered⟩ := hpoint
  obtain ⟨v, hv⟩ := Option.isSome_iff_exists.mp hanswered
  have hstored := attended.stored caller req.statusAddr v (by rw [hcall]; rfl) hv
  apply attended_leave attended
  · rw [hcall]
    rfl
  · exact ⟨hid, by rw [hstored, hv]⟩
  · rfl
  · rfl

end Leave

/-! ## The device -/

section Device

variable {size : UInt16} {events : List RingEvent} {disk : Disk} {head : UInt16}

/-- A fetch moves the oldest head of the available ring to the heads in flight. -/
theorem routed_fetch (routed : Routed size events disk) {rings : Rings}
    (hfetch : disk.rings.fetch = .ok (some head, rings)) :
    Routed size (events ++ [.fetch head]) { disk with rings } := by
  have hordered := ordered_fetch routed.ordered hfetch
  obtain rfl := fetch_keeps hfetch
  refine ⟨hordered, routed.idle, ?_, ?_, routed.chains⟩
  · simp only [published_snoc, popped_snoc, RingEvent.published, RingEvent.popped, List.append_nil]
    exact routed.unpopped
  · obtain ⟨rest, hrest⟩ := hordered.avail.consumed_prefix
    simp only [pushed_snoc, fetched_snoc, RingEvent.pushed, RingEvent.fetched,
      List.append_nil] at hrest ⊢
    have hflight := routed.flight
    rw [← hrest, List.append_assoc, List.drop_left] at hflight
    rw [← hrest, List.drop_left]
    exact hflight.trans List.perm_middle

theorem attended_fetch (attended : Attended disk) {rings : Rings}
    (hfetch : disk.rings.fetch = .ok (some head, rings)) : Attended { disk with rings } := by
  obtain rfl := fetch_keeps hfetch
  obtain ⟨hpoints, hprepared, hcallers, hlive, hboxes, hstored, hanswered, hturn⟩ := attended
  exact ⟨hpoints, hprepared, hcallers, hlive, hboxes, hstored, hanswered, hturn⟩

theorem complete_keeps {r written rings : Rings} {len : UInt32}
    (hwrite : r.writeUsed head len = .ok written) (hpublish : written.publish = .ok rings) :
    written.pending = some (head.toUInt32, len) ∧ rings.pending = none ∧
      rings.inFlight = r.inFlight.erase head ∧ rings.queue.size = r.queue.size ∧
      rings.queue.desc = r.queue.desc ∧ rings.queue.freeHead = r.queue.freeHead ∧
      rings.queue.numFree = r.queue.numFree := by
  obtain ⟨_, _, hwrite⟩ := bind_eq_ok.mp hwrite
  obtain ⟨_, _, hwrite⟩ := bind_eq_ok.mp hwrite
  cases hwrite
  obtain ⟨_, _, hpublish⟩ := bind_eq_ok.mp hpublish
  obtain ⟨_, _, hpublish⟩ := bind_eq_ok.mp hpublish
  cases hpublish
  exact ⟨rfl, rfl, rfl, rfl, rfl, rfl, rfl⟩

/-- A head in flight belongs to one transfer, and its completion is written into the
box of the call that waits for it. -/
theorem exists_transfer (routed : Routed size events disk) (attended : Attended disk)
    (hhead : head ∈ disk.rings.inFlight) :
    ∃ t req, t ∈ disk.owned ∧ t.head = head ∧
      (disk.calls t.caller).outstanding = some (req, head) ∧
      ∀ status rings, disk.afterComplete head status rings =
        { disk with
          rings
          memory := Function.update disk.memory req.statusAddr status
          owned := disk.owned.erase t
          completed := disk.completed ++ [t]
          answers := Function.update disk.answers t.caller (some status) } := by
  have hmem : head ∈ disk.owned.map Transfer.head :=
    routed.flight.mem_iff.mpr (List.mem_append_left _ hhead)
  obtain ⟨t₀, ht₀, hhead₀⟩ := List.mem_map.mp hmem
  have hsome : (disk.owned.find? (·.head = head)).isSome := by
    rw [List.find?_isSome]
    exact ⟨t₀, ht₀, by simpa using hhead₀⟩
  obtain ⟨t, hfind⟩ := Option.isSome_iff_exists.mp hsome
  have ht : t ∈ disk.owned := List.mem_of_find?_eq_some hfind
  have hheadT : t.head = head := by simpa using List.find?_some hfind
  have htransfer : t ∈ disk.transfers := List.mem_append_left _ ht
  obtain ⟨req, a, b, hout, hchain, haddr⟩ := attended.prepared t htransfer
  have hstatus := statusAddr_eq routed htransfer hchain haddr
  rw [hheadT] at hout hstatus
  refine ⟨t, req, ht, hheadT, hout, ?_⟩
  intro status rings
  simp only [Disk.afterComplete, Disk.store, hstatus, Disk.settle, hfind]

theorem transfers_complete {t : Transfer} (ht : t ∈ disk.owned) :
    (disk.owned.erase t ++ (disk.completed ++ [t])).Perm disk.transfers := by
  have hfront : (disk.owned.erase t ++ (disk.completed ++ [t])).Perm
      (t :: disk.owned.erase t ++ disk.completed) := by
    rw [← List.append_assoc]
    exact List.perm_append_singleton _ _
  exact hfront.trans ((List.perm_cons_erase ht).append_right disk.completed).symm

theorem routed_afterComplete (routed : Routed size events disk) (attended : Attended disk)
    (hhead : head ∈ disk.rings.inFlight) {len : UInt32} {status : UInt8} {written rings : Rings}
    (hwrite : disk.rings.writeUsed head len = .ok written)
    (hpublish : written.publish = .ok rings) :
    Routed size (events ++ [.write head len] ++ [.publish (head.toUInt32, len)])
      (disk.afterComplete head status rings) := by
  obtain ⟨t, req, ht, rfl, _, heq⟩ := exists_transfer routed attended hhead
  obtain ⟨hpending, hidle, hinFlight, hsize, hdesc, hfreeHead, hcount⟩ :=
    complete_keeps hwrite hpublish
  have hwritten := ordered_write routed.ordered hhead routed.idle hwrite
  have howned := routed.chains.of_desc_eq hsize hdesc hfreeHead hcount
  rw [heq]
  refine ⟨ordered_publish hwritten hpending hpublish, hidle, ?_, ?_, ?_⟩
  · rw [published_snoc, published_snoc, popped_snoc, popped_snoc]
    simp [RingEvent.published, RingEvent.popped, routed.unpopped]
  · simp only [pushed_snoc, fetched_snoc, RingEvent.pushed, RingEvent.fetched, List.append_nil,
      hinFlight]
    -- both sides lose the head that was completed
    apply List.Perm.cons_inv (a := t.head)
    have hleft : (t.head :: (disk.owned.erase t).map Transfer.head).Perm
        (disk.owned.map Transfer.head) := ((List.perm_cons_erase ht).map Transfer.head).symm
    have hright : (disk.rings.inFlight ++ (pushed events).drop (fetched events).length).Perm
        (t.head :: (disk.rings.inFlight.erase t.head ++
          (pushed events).drop (fetched events).length)) :=
      (List.perm_cons_erase hhead).append_right _
    exact (hleft.trans routed.flight).trans hright
  · have hperm := (transfers_complete ht).map Transfer.chain
    have hnext := howned.of_perm hperm.symm
    rw [← hnext.free_eq] at hnext
    exact hnext

/-- The call that waits for the head of a transfer is the one that made it. -/
theorem caller_of_outstanding (routed : Routed size events disk) (attended : Attended disk)
    {t : Transfer} (ht : t ∈ disk.transfers) {caller : ℕ} {req : Request}
    (hout : (disk.calls caller).outstanding = some (req, t.head)) : t.caller = caller := by
  obtain ⟨t', ht', rfl⟩ := attended.live caller (by rw [hout]; exact Option.some_ne_none _)
  have hprepared := attended.prepared t' ht'
  have hhead : t'.head = t.head := by
    obtain ⟨req', _, _, hout', _⟩ := hprepared
    have hpair : (req, t.head) = (req', t'.head) := Option.some.inj (hout.symm.trans hout')
    exact (congrArg Prod.snd hpair).symm
  have hsame : t' = t := routed.eq_of_mem_chain ht' ht hprepared.head_mem
    (hhead ▸ (attended.prepared t ht).head_mem)
  rw [hsame]

theorem attended_afterComplete (routed : Routed size events disk) (attended : Attended disk)
    (hhead : head ∈ disk.rings.inFlight) {len : UInt32} {status : UInt8} {written rings : Rings}
    (hwrite : disk.rings.writeUsed head len = .ok written)
    (hpublish : written.publish = .ok rings) (hturn : InTurn disk (.complete head)) :
    Attended (disk.afterComplete head status rings) := by
  obtain ⟨t, req, ht, rfl, hout, heq⟩ := exists_transfer routed attended hhead
  obtain ⟨_, _, _, _, hdesc, _, _⟩ := complete_keeps hwrite hpublish
  have hperm := transfers_complete ht
  have htransfer : t ∈ disk.transfers := List.mem_append_left _ ht
  have hboxT := Point.box_of_outstanding hout
  rw [heq]
  constructor
  case points =>
    -- the call that gets its answer is outstanding, so nothing was said of its answer
    intro other
    have hpoint := attended.points other
    by_cases hother : other = t.caller
    · rw [hother] at hpoint ⊢
      show Consistent _ t.caller (disk.calls t.caller)
      cases hcall : disk.calls t.caller with
      | submitted _ _ => trivial
      | waiting _ _ =>
        rw [hcall] at hpoint
        exact hpoint
      | start | freed _ _ _ | returned _ _ _ | full =>
        rw [hcall] at hout
        cases hout
    · exact hpoint.congr (Function.update_of_ne hother _ _) id
  case prepared =>
    intro t' ht'
    apply (attended.prepared t' (hperm.mem_iff.mp ht')).congr
    · rfl
    · exact fun i _ => congrArg (·[i.toNat]?) hdesc
  case callers => exact (hperm.map Transfer.caller).nodup_iff.mpr attended.callers
  case live =>
    intro other hlive
    obtain ⟨t', ht', hcaller⟩ := attended.live other hlive
    exact ⟨t', hperm.mem_iff.mpr ht', hcaller⟩
  case boxes => exact attended.boxes
  case stored =>
    intro other a v hbox hanswer
    by_cases hother : other = t.caller
    · obtain rfl : v = status := by
        have hupdate : some status = some v := by simpa [hother] using hanswer
        exact (Option.some.inj hupdate).symm
      obtain rfl : a = req.statusAddr := by
        have hsame : some a = some req.statusAddr := (hother ▸ hbox.symm).trans hboxT
        exact Option.some.inj hsame
      exact Function.update_self _ _ _
    · have hne : a ≠ req.statusAddr := by
        rintro rfl
        exact hother (attended.boxes other t.caller _ hbox hboxT)
      have hold : disk.answers other = some v :=
        (Function.update_of_ne hother (some status) disk.answers).symm.trans hanswer
      exact (Function.update_of_ne hne _ _).trans (attended.stored other a v hbox hold)
  case answered =>
    intro t' ht'
    by_cases hcaller : t'.caller = t.caller
    · simp [hcaller]
    · rcases List.mem_append.mp ht' with ht' | ht'
      · have hold := attended.answered t' ht'
        simpa only [Function.update_of_ne hcaller] using hold
      · exact absurd (congrArg Transfer.caller (List.mem_singleton.mp ht')) hcaller
  case turn =>
    intro caller hlock t' ht'
    cases hcompleted : disk.completed with
    | nil =>
      -- the next completion is the one the lock holder spins for
      obtain rfl : t = t' := by simpa [hcompleted] using ht'
      obtain ⟨req', hcall⟩ := hturn hcompleted caller hlock
      exact caller_of_outstanding routed attended htransfer (by rw [hcall]; rfl)
    | cons first rest =>
      have hfirst : first = t' := by simpa [hcompleted] using ht'
      exact attended.turn caller hlock t' (by rw [hcompleted, ← hfirst]; rfl)

end Device

/-! ## Runs -/

/-- The two invariants together. -/
def Served (size : UInt16) (disk : Disk) : Prop :=
  ∃ events, Routed size events disk ∧ Attended disk

theorem served_new {size : UInt16} {q : Virtqueue} (hnew : Virtqueue.new size = .ok q) :
    Served size (Disk.new q) := by
  refine ⟨[], ⟨ordered_new hnew, rfl, rfl, List.Perm.refl _, ?_⟩, ?_⟩
  · have howned := owned_new hnew
    rw [← howned.free_eq] at howned
    exact howned
  · constructor
    case points => exact fun _ => rfl
    case prepared => exact fun t ht => absurd ht List.not_mem_nil
    case callers => exact List.nodup_nil
    case live => exact fun _ hlive => absurd rfl hlive
    case boxes => exact fun _ _ _ hbox => nomatch hbox
    case stored => exact fun _ _ _ hbox => nomatch hbox
    case answered => exact fun t ht => absurd ht List.not_mem_nil
    case turn => exact fun _ hlock => nomatch hlock

/-- A step taken in turn keeps the invariants. -/
theorem step_served {size : UInt16} {disk next : Disk} {event : Event}
    (served : Served size disk) (step : Step disk event next) (hturn : InTurn disk event) :
    Served size next := by
  obtain ⟨events, routed, attended⟩ := served
  cases step with
  | submit hcall hlock hbox hsubmit =>
    exact ⟨_, routed_afterSubmit routed hsubmit,
      attended_afterSubmit routed attended hcall hlock hbox hsubmit⟩
  | full hcall _ hsubmit =>
    obtain rfl := submit_full routed.chains hsubmit
    obtain ⟨hordered, hidle, hunpopped, hflight, hchains⟩ := routed
    exact ⟨events, ⟨hordered, hidle, hunpopped, hflight, hchains⟩, attended_full attended hcall⟩
  | wait hcall hlock =>
    obtain ⟨hordered, hidle, hunpopped, hflight, hchains⟩ := routed
    exact ⟨events, ⟨hordered, hidle, hunpopped, hflight, hchains⟩,
      attended_wait attended hcall hlock hturn⟩
  | free hcall hpop hfree =>
    exact ⟨_, routed_afterFree routed attended hcall hpop hfree,
      attended_afterFree routed attended hcall hpop hfree⟩
  | examine hcall =>
    obtain ⟨hordered, hidle, hunpopped, hflight, hchains⟩ := routed
    exact ⟨events, ⟨hordered, hidle, hunpopped, hflight, hchains⟩,
      attended_examine attended hcall⟩
  | fetch hfetch => exact ⟨_, routed_fetch routed hfetch, attended_fetch attended hfetch⟩
  | complete hhead hwrite hpublish =>
    exact ⟨_, routed_afterComplete routed attended hhead hwrite hpublish,
      attended_afterComplete routed attended hhead hwrite hpublish hturn⟩

theorem Served.faithful {size : UInt16} {disk : Disk} (served : Served size disk) :
    Faithful disk := by
  obtain ⟨events, routed, attended⟩ := served
  constructor
  case popped_own =>
    intro caller req head id hcall
    have hpoint := attended.points caller
    rw [hcall] at hpoint
    exact hpoint.1
  case freed_completed =>
    intro caller req head id hcall
    have hpoint := attended.points caller
    rw [hcall] at hpoint
    refine ⟨hpoint.2, ?_⟩
    rintro t ht rfl
    obtain ⟨_, _, _, hout, _⟩ := attended.prepared t (List.mem_append_left _ ht)
    rw [hcall] at hout
    cases hout
  case free_disjoint =>
    intro t ht i hi
    exact routed.chain_disjoint (List.mem_append_left _ ht) hi
  case status_own =>
    intro caller head id status hcall
    have hpoint := attended.points caller
    rw [hcall] at hpoint
    exact hpoint

/-- **Requests that wait in the order of their completions get their own.**  In a run
of any number of calls in which the call that holds the lock is always the one whose
completion comes next, every call pops the completion of its own chain, frees it
after the device is done with it, and examines the status written for it. -/
theorem requests_in_turn (size : UInt16) (q : Virtqueue) (hnew : Virtqueue.new size = .ok q)
    (events : List Event) (disk : Disk)
    (run : Run (fun disk event next => Step disk event next ∧ InTurn disk event) (Disk.new q)
      events disk) : Faithful disk := by
  have served : Served size disk :=
    run.invariant (Served size) (served_new hnew) fun _ _ _ served step =>
      step_served served step.1 step.2
  exact served.faithful

/-- A queue of sixteen descriptors, of which those of `front` are in use. -/
def queueOfSixteen (front : List Desc) (avail used : List UInt8)
    (freeHead numFree lastUsedIdx : UInt16) : Virtqueue where
  size := 16
  desc := front ++ ((List.range 16).map (freshDesc 16)).drop front.length
  avail := avail ++ List.replicate (38 - avail.length) 0
  used := used ++ List.replicate (134 - used.length) 0
  freeHead
  numFree
  lastUsedIdx

/-- A request to write one sector. -/
def writeRequest : Request := ⟨virtioBlkTOut, 1, 0x1000, 0x2000, 0x3000⟩

/-- A request to read one sector. -/
def readRequest : Request := ⟨virtioBlkTIn, 1, 0x1010, 0x2200, 0x3001⟩

/-- A queue of sixteen descriptors with nothing in use. -/
def emptyQueue : Virtqueue := queueOfSixteen [] [] [] 0 16 0

/-- The descriptors of both requests. -/
def bothChains : List Desc :=
  [⟨0x1000, 16, 1, 1⟩, ⟨0x2000, 512, 1, 2⟩, ⟨0x3000, 1, 2, 0⟩,
    ⟨0x1010, 16, 1, 4⟩, ⟨0x2200, 512, 3, 5⟩, ⟨0x3001, 1, 2, 0⟩]

/-- The queue behind both requests, with what the device has written to the used ring. -/
def bothQueue (front : List Desc) (used : List UInt8) (freeHead numFree lastUsedIdx : UInt16) :
    Virtqueue :=
  queueOfSixteen front [0, 0, 2, 0, 0, 0, 3] used freeHead numFree lastUsedIdx

/-- Both requests are submitted, by calls `0` and `1`. -/
def bothSubmitted : Disk :=
  ((Disk.new emptyQueue).afterSubmit 0 writeRequest 0
    (queueOfSixteen (bothChains.take 3) [0, 0, 1] [] 3 13 0)).afterSubmit 1 readRequest 3
      (bothQueue bothChains [] 6 10 0)

/-- The device has fetched both and completed the read, which came second. -/
def readCompleted : Disk :=
  { bothSubmitted with
    rings := ⟨bothQueue bothChains [] 6 10 0, 2, [3, 0], none⟩ }.afterComplete 3 0
    ⟨bothQueue bothChains [0, 0, 1, 0, 3, 0, 0, 0, 1, 2] 6 10 0, 2, [0], none⟩

/-- So far every step is in turn, whatever comes next. -/
theorem run_readCompleted {R : Disk → Event → Disk → Prop}
    (hR : ∀ disk event next, Step disk event next → InTurn disk event → R disk event next) :
    Run R (Disk.new emptyQueue) [.submit 0, .submit 1, .fetch 0, .fetch 3, .complete 3]
      readCompleted := by
  let q := bothQueue bothChains [] 6 10 0
  let disk₁ := (Disk.new emptyQueue).afterSubmit 0 writeRequest 0
    (queueOfSixteen (bothChains.take 3) [0, 0, 1] [] 3 13 0)
  let disk₃ : Disk := { bothSubmitted with rings := ⟨q, 1, [0], none⟩ }
  let disk₄ : Disk := { bothSubmitted with rings := ⟨q, 2, [3, 0], none⟩ }
  have hsubmit₀ : Step (Disk.new emptyQueue) (.submit 0) disk₁ :=
    .submit rfl rfl (fun _ => nofun) rfl
  have hbox : ∀ other, (disk₁.calls other).box ≠ some readRequest.statusAddr := by
    intro other
    show (((Disk.new emptyQueue).goto 0 (.submitted writeRequest 0)).calls other).box ≠ _
    rw [goto_calls]
    split
    · decide
    · exact nofun
  have hsubmit₁ : Step disk₁ (.submit 1) bothSubmitted :=
    .submit rfl rfl hbox (by decide +kernel)
  have hfetch₀ : Step bothSubmitted (.fetch 0) disk₃ := .fetch rfl
  have hfetch₁ : Step disk₃ (.fetch 3) disk₄ := .fetch (by decide +kernel)
  have hwrite : disk₄.rings.writeUsed 3 513 = .ok
      ⟨bothQueue bothChains [0, 0, 0, 0, 3, 0, 0, 0, 1, 2] 6 10 0, 2, [0], some (3, 513)⟩ := by
    decide +kernel
  have hcomplete : Step disk₄ (.complete 3) readCompleted :=
    .complete (by decide +kernel) hwrite (by decide +kernel)
  exact ((((Run.nil.snoc (hR _ _ _ hsubmit₀ trivial)).snoc (hR _ _ _ hsubmit₁ trivial)).snoc
    (hR _ _ _ hfetch₀ trivial)).snoc (hR _ _ _ hfetch₁ trivial)).snoc
      (hR _ _ _ hcomplete fun _ _ => nofun)

theorem new_emptyQueue : Virtqueue.new 16 = .ok emptyQueue := rfl

/-- The device completes the request of call `1` first and then that of call `0`, and the calls wait
in this order. -/
theorem requests_in_turn_two :
    ∃ q events disk, Virtqueue.new 16 = .ok q ∧
      Run (fun disk event next => Step disk event next ∧ InTurn disk event) (Disk.new q) events
        disk ∧ disk.calls 0 = .returned 0 0 0 ∧ disk.calls 1 = .returned 3 3 0 ∧
        Faithful disk := by
  let usedBytes : List UInt8 := [0, 0, 2, 0, 3, 0, 0, 0, 1, 2, 0, 0, 0, 0, 0, 0, 1]
  let late : List Desc := [⟨0x1010, 16, 1, 6⟩, ⟨0x2200, 512, 1, 3⟩, ⟨0x3001, 1, 1, 4⟩]
  let early : List Desc := [⟨0x1000, 16, 1, 5⟩, ⟨0x2000, 512, 1, 0⟩, ⟨0x3000, 1, 1, 1⟩]
  let front := bothChains.take 3 ++ late
  let disk₁ := readCompleted.afterComplete 0 0 ⟨bothQueue bothChains usedBytes 6 10 0, 2, [], none⟩
  let disk₂ : Disk := { disk₁.goto 1 (.waiting readRequest 3) with lock := some 1 }
  let disk₃ := disk₂.afterFree 1 readRequest 3 3 (bothQueue front usedBytes 5 13 1)
  let disk₄ : Disk := { disk₃.goto 0 (.waiting writeRequest 0) with lock := some 0 }
  let disk₅ := disk₄.afterFree 0 writeRequest 0 0 (bothQueue (early ++ late) usedBytes 2 16 2)
  let disk₆ := disk₅.goto 1 (.returned 3 3 (disk₅.memory 0x3001))
  let disk₇ := disk₆.goto 0 (.returned 0 0 (disk₆.memory 0x3000))
  have hwrite : readCompleted.rings.writeUsed 0 1 = .ok
      ⟨bothQueue bothChains (usedBytes.set 2 1) 6 10 0, 2, [], some (0, 1)⟩ := by decide +kernel
  have hcomplete : Step readCompleted (.complete 0) disk₁ :=
    .complete (by decide +kernel) hwrite rfl
  have hsubmitted : disk₁.calls 1 = .submitted readRequest 3 := rfl
  have hwait₁ : Step disk₁ (.wait 1) disk₂ := .wait hsubmitted rfl
  have hcall₂ : disk₂.calls 1 = .waiting readRequest 3 := rfl
  have hpop₁ : disk₂.queue.popUsed =
      .ok (some (3, 513), bothQueue bothChains usedBytes 6 10 1) := by decide +kernel
  have hfree₁ : Step disk₂ (.free 1) disk₃ := .free hcall₂ hpop₁ rfl
  have hsubmitted₀ : disk₃.calls 0 = .submitted writeRequest 0 := rfl
  have hwait₀ : Step disk₃ (.wait 0) disk₄ := .wait hsubmitted₀ rfl
  have hcall₄ : disk₄.calls 0 = .waiting writeRequest 0 := rfl
  have hpop₀ : disk₄.queue.popUsed = .ok (some (0, 1), bothQueue front usedBytes 5 13 2) := by
    decide +kernel
  have hfree₀ : Step disk₄ (.free 0) disk₅ := .free hcall₄ hpop₀ rfl
  have hfreed₁ : disk₅.calls 1 = .freed readRequest 3 3 := rfl
  have hexamine₁ : Step disk₅ (.examine 1) disk₆ := .examine hfreed₁
  have hfreed₀ : disk₆.calls 0 = .freed writeRequest 0 0 := rfl
  have hexamine₀ : Step disk₆ (.examine 0) disk₇ := .examine hfreed₀
  have hturn₁ : disk₁.completed.head?.map Transfer.caller = some 1 := rfl
  have hturn₀ : disk₃.completed.head?.map Transfer.caller = some 0 := rfl
  have hread := run_readCompleted
    (R := fun disk event next => Step disk event next ∧ InTurn disk event)
    fun _ _ _ step turn => ⟨step, turn⟩
  have hrun := ((((((hread.snoc ⟨hcomplete, fun _ _ => nofun⟩).snoc
    ⟨hwait₁, fun t ht => by simpa [ht] using hturn₁⟩).snoc ⟨hfree₁, trivial⟩).snoc
    ⟨hwait₀, fun t ht => by simpa [ht] using hturn₀⟩).snoc ⟨hfree₀, trivial⟩).snoc
    ⟨hexamine₁, trivial⟩).snoc ⟨hexamine₀, trivial⟩
  exact ⟨emptyQueue, _, disk₇, new_emptyQueue, hrun, rfl, rfl,
    requests_in_turn 16 emptyQueue new_emptyQueue _ _ hrun⟩

/-- Two requests whose completions cross.  The device completes the request of call
`1` first; call `0` takes the lock, pops that completion and frees its own chain,
which the device still owns, and then reads the status byte it stored itself. -/
theorem requests_crossed :
    ∃ q events disk, Virtqueue.new 16 = .ok q ∧ Run Step (Disk.new q) events disk ∧
      disk.calls 0 = .returned 0 3 0xff ∧ disk.answers 0 = none ∧
      (∃ t ∈ disk.owned, t.caller = 0 ∧ ∃ i ∈ t.chain, i ∈ disk.queue.freeList) ∧
      ¬Faithful disk := by
  let usedBytes : List UInt8 := [0, 0, 1, 0, 3, 0, 0, 0, 1, 2]
  let freed : List Desc := [⟨0x1000, 16, 1, 6⟩, ⟨0x2000, 512, 1, 0⟩, ⟨0x3000, 1, 1, 1⟩]
  let disk₁ : Disk := { readCompleted.goto 0 (.waiting writeRequest 0) with lock := some 0 }
  let disk₂ := disk₁.afterFree 0 writeRequest 0 3
    (bothQueue (freed ++ bothChains.drop 3) usedBytes 2 13 1)
  let disk₃ := disk₂.goto 0 (.returned 0 3 (disk₂.memory 0x3000))
  have hsubmitted : readCompleted.calls 0 = .submitted writeRequest 0 := rfl
  have hwait : Step readCompleted (.wait 0) disk₁ := .wait hsubmitted rfl
  have hcall₁ : disk₁.calls 0 = .waiting writeRequest 0 := rfl
  have hpop : disk₁.queue.popUsed =
      .ok (some (3, 513), bothQueue bothChains usedBytes 6 10 1) := by decide +kernel
  have hfree : Step disk₁ (.free 0) disk₂ := .free hcall₁ hpop rfl
  have hcall₂ : disk₂.calls 0 = .freed writeRequest 0 3 := rfl
  have hexamine : Step disk₂ (.examine 0) disk₃ := .examine hcall₂
  have hrun := (((run_readCompleted fun _ _ _ step _ => step).snoc hwait).snoc hfree).snoc hexamine
  have hcall₃ : disk₃.calls 0 = .returned 0 3 0xff := rfl
  refine ⟨emptyQueue, _, disk₃, new_emptyQueue, hrun, hcall₃, rfl, by decide +kernel, ?_⟩
  intro faithful
  exact absurd (faithful.status_own 0 0 3 0xff hcall₃).1 (by decide)

end Hyperion.Virtio.Blk
