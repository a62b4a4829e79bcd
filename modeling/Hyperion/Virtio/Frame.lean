import Hyperion.Virtio.FreeList
import Hyperion.Virtio.Rings

/-!
# What the operations of a queue leave alone

`Frame touched q next` says that an operation wrote only the descriptors of
`touched` and neither ring.  The operations on the rings, on the other hand, leave the
table and the free list as they are (`pushAvail_keeps`, `popUsed_keeps`).
-/

namespace Hyperion.Virtio

open Hyperion.Lib Virtqueue

/-! ## Frames -/

/-- From `q` to `next` only the descriptors of `touched`, the free head and the
number of free descriptors may have changed. -/
structure Frame (touched : List UInt16) (q next : Virtqueue) : Prop where
  size_eq : next.size = q.size
  avail_eq : next.avail = q.avail
  used_eq : next.used = q.used
  lastUsedIdx_eq : next.lastUsedIdx = q.lastUsedIdx
  desc_eq : ∀ i, i ∉ touched → next.desc[i.toNat]? = q.desc[i.toNat]?

namespace Frame

variable {touched more : List UInt16} {q middle next : Virtqueue}

theorem refl (touched : List UInt16) (q : Virtqueue) : Frame touched q q :=
  ⟨rfl, rfl, rfl, rfl, fun _ _ => rfl⟩

theorem trans (first : Frame touched q middle) (second : Frame touched middle next) :
    Frame touched q next where
  size_eq := second.size_eq.trans first.size_eq
  avail_eq := second.avail_eq.trans first.avail_eq
  used_eq := second.used_eq.trans first.used_eq
  lastUsedIdx_eq := second.lastUsedIdx_eq.trans first.lastUsedIdx_eq
  desc_eq := fun i hi => (second.desc_eq i hi).trans (first.desc_eq i hi)

theorem mono (frame : Frame touched q next) (hsub : touched ⊆ more) : Frame more q next where
  size_eq := frame.size_eq
  avail_eq := frame.avail_eq
  used_eq := frame.used_eq
  lastUsedIdx_eq := frame.lastUsedIdx_eq
  desc_eq := fun i hi => frame.desc_eq i fun htouched => hi (hsub htouched)

end Frame

theorem setIndex_eq_ok {α : Type} {xs ys : List α} {i : ℕ} {a : α}
    (hset : setIndex xs i a = .ok ys) : ys = xs.set i a := by
  unfold setIndex at hset
  split at hset
  · exact (Except.ok.inj hset).symm
  · cases hset

section Operations

variable {q next : Virtqueue}

theorem allocDesc_frame {result : Option UInt16} (hcall : q.allocDesc = .ok (result, next)) :
    Frame result.toList q next := by
  unfold allocDesc at hcall
  split at hcall
  · cases hcall
    exact Frame.refl _ q
  · obtain ⟨d, _, hcall⟩ := bind_eq_ok.mp hcall
    obtain ⟨desc, hset, hcall⟩ := bind_eq_ok.mp hcall
    cases hcall
    obtain rfl := setIndex_eq_ok hset
    exact ⟨rfl, rfl, rfl, rfl, fun i hi => getElem?_set_of_ne (by simpa using hi)⟩

theorem link_frame {prev following : UInt16} (hcall : q.link prev following = .ok next) :
    Frame [prev] q next := by
  obtain ⟨d, _, hcall⟩ := bind_eq_ok.mp hcall
  obtain ⟨desc, hset, hcall⟩ := bind_eq_ok.mp hcall
  cases hcall
  obtain rfl := setIndex_eq_ok hset
  exact ⟨rfl, rfl, rfl, rfl, fun i hi => getElem?_set_of_ne (by simpa using hi)⟩

theorem fillDesc_eq {idx flags : UInt16} {addr : UInt64} {len : UInt32}
    (hcall : q.fillDesc idx addr len flags = .ok next) :
    ∃ d, q.desc[idx.toNat]? = some d ∧
      next = { q with desc := q.desc.set idx.toNat { d with addr, len, flags } } := by
  obtain ⟨d, hget, hcall⟩ := bind_eq_ok.mp hcall
  obtain ⟨desc, hset, hcall⟩ := bind_eq_ok.mp hcall
  cases hcall
  obtain rfl := setIndex_eq_ok hset
  exact ⟨d, index_eq_ok.mp hget, rfl⟩

theorem fillDesc_frame {idx flags : UInt16} {addr : UInt64} {len : UInt32}
    (hcall : q.fillDesc idx addr len flags = .ok next) : Frame [idx] q next := by
  obtain ⟨d, _, rfl⟩ := fillDesc_eq hcall
  exact ⟨rfl, rfl, rfl, rfl, fun i hi => getElem?_set_of_ne (by simpa using hi)⟩

variable {chains : List (List UInt16)} {free : List UInt16}

/-- The loop of `alloc_chain` writes the last descriptor of the chain so far and
those it takes. -/
theorem extendChain_frame {head : UInt16} (turns : ℕ) :
    ∀ {q : Virtqueue} {free : List UInt16} (front : List UInt16) (prev : UInt16)
      {result : Option UInt16}, Owned q free ((front ++ [prev]) :: chains) →
      turns ≤ free.length → extendChain head turns prev q = .ok (result, next) →
      Frame (prev :: free.take turns) q next := by
  induction turns with
  | zero =>
    intro q free front prev result _ _ hcall
    cases hcall
    exact Frame.refl _ _
  | succ turns ih =>
    intro q free front prev result owned hturns hcall
    cases free with
    | nil => simp at hturns
    | cons a rest =>
      obtain ⟨q₁, halloc, _, howned₁⟩ := allocDesc_of_cons owned
      obtain ⟨q₂, hlink, _, howned₂⟩ := link_of_owned howned₁
      have happend : front ++ [prev, a] = (front ++ [prev]) ++ [a] := by simp
      rw [happend] at howned₂
      rw [extendChain, halloc] at hcall
      change (q₁.link prev a >>= fun q => extendChain head turns a q) = _ at hcall
      rw [hlink] at hcall
      have hrest := ih _ a howned₂ (by simpa using hturns) hcall
      have hfirst : Frame (prev :: a :: rest.take turns) q q₁ :=
        (allocDesc_frame halloc).mono (by simp)
      have hsecond : Frame (prev :: a :: rest.take turns) q₁ q₂ :=
        (link_frame hlink).mono (by simp)
      exact (hfirst.trans hsecond).trans (hrest.mono (by simp))

theorem allocChain_frame {n : ℕ} {result : Option UInt16} (owned : Owned q free chains)
    (hn : n < 65536) (hcall : q.allocChain n = .ok (result, next)) :
    Frame (free.take n) q next := by
  by_cases hroom : 1 ≤ n ∧ n ≤ free.length
  · obtain ⟨k, rfl⟩ : ∃ k, n = k + 1 := ⟨n - 1, by omega⟩
    cases free with
    | nil => simp at hroom
    | cons a rest =>
      obtain ⟨q₁, halloc, _, howned₁⟩ := allocDesc_of_cons owned
      unfold allocChain at hcall
      split at hcall
      · cases hcall
        exact Frame.refl _ q
      · rw [halloc] at hcall
        have hfirst : Frame (a :: rest.take k) q q₁ := (allocDesc_frame halloc).mono (by simp)
        exact hfirst.trans
          (extendChain_frame k [] a howned₁ (by simpa using hroom.2) hcall)
  · rw [allocChain_of_not_le owned hn hroom] at hcall
    cases hcall
    exact Frame.refl _ q

theorem released_frame (q : Virtqueue) (idx : UInt16) (d : Desc) :
    Frame [idx] q (q.released idx d) :=
  ⟨rfl, rfl, rfl, rfl, fun i hi => getElem?_set_of_ne (by simpa using hi)⟩

/-- `free_chain` writes the descriptors of its chain only. -/
theorem freeChain_frame {a : UInt16} {rest : List UInt16}
    (owned : Owned q free ((a :: rest) :: chains)) {fuel : ℕ} (hfuel : (a :: rest).length ≤ fuel)
    (hcall : q.freeChain a fuel = .ok next) :
    Frame (a :: rest) q next := by
  induction rest generalizing q free a fuel with
  | nil =>
    obtain ⟨d, hget⟩ := owned.getElem? (i := a) (by simp)
    have hlast : moreOf q.desc a = false := owned.linked [a] (by simp)
    obtain ⟨fuel, rfl⟩ : ∃ n, fuel = n + 1 := ⟨fuel - 1, by simp at hfuel; omega⟩
    have hturn : freeTurn (q, a) = .ok (.leave (q.released a d)) := by
      rw [freeTurn_eq hget owned.room, hlast]
      rfl
    rw [freeChain, loop_leave hturn] at hcall
    cases hcall
    exact released_frame q a d
  | cons b rest ih =>
    obtain ⟨d, hturn, hreleased⟩ := freeTurn_of_owned owned
    obtain ⟨fuel, rfl⟩ : ∃ n, fuel = n + 1 := ⟨fuel - 1, by simp at hfuel; omega⟩
    rw [freeChain, loop_again hturn] at hcall
    have hframe := ih hreleased (by simpa using hfuel) hcall
    have hfirst : Frame (a :: b :: rest) q (q.released a d) :=
      (released_frame q a d).mono (by simp)
    exact hfirst.trans (hframe.mono (by simp))

/-- Who owns what depends on the table and the free list, not on the rings. -/
theorem Owned.of_desc_eq (owned : Owned q free chains) (hsize : next.size = q.size)
    (hdesc : next.desc = q.desc) (hhead : next.freeHead = q.freeHead)
    (hcount : next.numFree = q.numFree) :
    Owned next free chains := by
  obtain ⟨hlength, hfree, hlinked, hperm⟩ := owned
  refine ⟨by rw [hdesc, hsize, hlength], ?_, by rwa [hdesc], by rwa [hsize]⟩
  rw [freeList, hdesc, hhead, hcount]
  exact hfree

/-- The rings do not notice a change of the table. -/
theorem Ordered.of_frame {size : UInt16} {events : List RingEvent} {r : Rings}
    {touched : List UInt16} {q : Virtqueue}
    (ord : Ordered size events r) (frame : Frame touched r.queue q) :
    Ordered size events { r with queue := q } where
  size_eq := frame.size_eq.trans ord.size_eq
  power := ord.power
  avail := by
    show Channel size 2 availEntry q.avail _ _ _ _
    rw [frame.avail_eq]
    exact ord.avail
  used := by
    show Channel size 8 usedEntry q.used q.lastUsedIdx _ _ _
    rw [frame.used_eq, frame.lastUsedIdx_eq]
    exact ord.used
  in_flight := ord.in_flight
  outstanding := ord.outstanding

/-- There are at most as many chains as descriptors. -/
theorem Owned.length_chains_le (owned : Owned q free chains) : chains.length ≤ q.size.toNat := by
  have hpos : chains.length ≤ chains.flatten.length := by
    rw [List.length_flatten]
    have hmap : ∀ n ∈ chains.map List.length, 1 ≤ n := by
      intro n hn
      obtain ⟨chain, hchain, rfl⟩ := List.mem_map.mp hn
      exact List.length_pos_iff.mpr (owned.linked chain hchain).ne_nil
    simpa using List.length_le_sum_of_one_le _ hmap
  have hadd := owned.length_add
  omega

theorem pushAvail_keeps {head : UInt16} (hcall : q.pushAvail head = .ok next) :
    next.size = q.size ∧ next.desc = q.desc ∧ next.freeHead = q.freeHead ∧
      next.numFree = q.numFree := by
  obtain ⟨_, _, hcall⟩ := bind_eq_ok.mp hcall
  obtain ⟨_, _, hcall⟩ := bind_eq_ok.mp hcall
  obtain ⟨_, _, hcall⟩ := bind_eq_ok.mp hcall
  obtain ⟨_, _, hcall⟩ := bind_eq_ok.mp hcall
  cases hcall
  exact ⟨rfl, rfl, rfl, rfl⟩

theorem popUsed_keeps {result : Option (UInt32 × UInt32)}
    (hcall : q.popUsed = .ok (result, next)) : ∃ lastUsedIdx, next = { q with lastUsedIdx } := by
  obtain ⟨_, _, hcall⟩ := bind_eq_ok.mp hcall
  split at hcall
  · cases hcall
    exact ⟨_, rfl⟩
  · obtain ⟨_, _, hcall⟩ := bind_eq_ok.mp hcall
    obtain ⟨_, _, hcall⟩ := bind_eq_ok.mp hcall
    obtain ⟨_, _, hcall⟩ := bind_eq_ok.mp hcall
    cases hcall
    exact ⟨_, rfl⟩

end Operations

end Hyperion.Virtio
