import Hyperion.Virtio.Blk
import Hyperion.Virtio.Frame

/-!
# What the two sections of a request do to the queue

`Frame` and `Owned` together give each section its lemma: `submit_of_room` and
`submit_of_full` for the first one, `freeChain_section` for the second.
-/

namespace Hyperion.Virtio

open Hyperion.Lib Virtqueue

/-! ## The first section -/

namespace Blk

variable {q next : Virtqueue} {free : List UInt16} {chains : List (List UInt16)} {req : Request}

theorem dataFlags_hasNext (ty : UInt32) : (dataFlags ty &&& vringDescFNext != 0) = true := by
  unfold dataFlags
  split <;> decide

/-- The three descriptors of a chain are told apart and linked. -/
theorem linked_three {a b c : UInt16} (owned : Owned q free ([a, b, c] :: chains)) :
    nextOf q.desc a = b ∧ nextOf q.desc b = c ∧ moreOf q.desc a = true ∧
      moreOf q.desc b = true ∧ moreOf q.desc c = false := by
  obtain ⟨hmoreA, hnextA, hmoreB, hnextB, hmoreC⟩ := owned.linked [a, b, c] (by simp)
  exact ⟨hnextA, hnextB, hmoreA, hmoreB, hmoreC⟩

/-- Filling a descriptor of a chain leaves the chain as it is. -/
theorem fillDesc_section {chain : List UInt16} {idx flags : UInt16} (addr : UInt64) (len : UInt32)
    (owned : Owned q free (chain :: chains)) (hmem : idx ∈ chain)
    (hflags : (flags &&& vringDescFNext != 0) = moreOf q.desc idx) :
    ∃ next d, q.fillDesc idx addr len flags = .ok next ∧ Owned next free (chain :: chains) ∧
      Frame chain q next ∧ next.desc[idx.toNat]? = some d ∧ d.addr = addr ∧ d.len = len := by
  obtain ⟨next, hfill, _, hnext⟩ := fillDesc_of_owned addr len owned (by simp [hmem]) hflags
  obtain ⟨d, hget, hset⟩ := fillDesc_eq hfill
  have hlt : idx.toNat < q.desc.length := (List.getElem?_eq_some_iff.mp hget).1
  have hself : next.desc[idx.toNat]? = some { d with addr, len, flags } := by
    rw [hset, List.getElem?_set_self hlt]
  exact ⟨next, _, hfill, hnext, (fillDesc_frame hfill).mono (by simp [hmem]), hself, rfl, rfl⟩

/-- The walk from one descriptor of a chain to the next. -/
theorem index_next {chain : List UInt16} {i j : UInt16} (owned : Owned q free (chain :: chains))
    (hmem : i ∈ chain) (hnext : nextOf q.desc i = j) :
    ∃ d, index q.desc i.toNat = .ok d ∧ d.next = j := by
  obtain ⟨d, hget⟩ := owned.getElem? (show i ∈ free ++ (chain :: chains).flatten by simp [hmem])
  exact ⟨d, index_eq_ok.mpr hget, by rw [← nextOf_of_getElem? hget, hnext]⟩

/-- Filling leaves the chain as it is, with the wrapped number of bytes in its second
descriptor, and its last descriptor points at the status byte. -/
theorem fillChain_of_owned {a b c : UInt16} (req : Request)
    (owned : Owned q free ([a, b, c] :: chains)) :
    ∃ next, fillChain q req a = .ok next ∧ Owned next free ([a, b, c] :: chains) ∧
      Frame [a, b, c] q next ∧
      (next.desc[b.toNat]?).map Desc.len = some (UInt32.ofNat (sectorBytes req.n)) ∧
      (next.desc[c.toNat]?).map Desc.addr = some req.statusAddr := by
  -- each descriptor keeps its `NEXT` bit, so `Owned` survives all three writes
  obtain ⟨_, _, hmoreA, _, _⟩ := linked_three owned
  have hflagsA : (vringDescFNext &&& vringDescFNext != 0) = moreOf q.desc a := by
    rw [hmoreA]
    decide
  obtain ⟨q₁, _, hfill₁, howned₁, hframe₁, _⟩ :=
    fillDesc_section req.headerAddr 16 owned (by simp) hflagsA
  obtain ⟨hnextA, _, _, hmoreB, _⟩ := linked_three howned₁
  obtain ⟨d₁, hindex₁, hstep₁⟩ := index_next howned₁ (by simp) hnextA
  obtain ⟨q₂, e₂, hfill₂, howned₂, hframe₂, hget₂, _, hlen⟩ :=
    fillDesc_section req.dataAddr (UInt32.ofNat (sectorBytes req.n)) howned₁ (by simp)
      ((dataFlags_hasNext req.ty).trans hmoreB.symm)
  obtain ⟨_, hnextB, _, _, hmoreC⟩ := linked_three howned₂
  obtain ⟨d₂, hindex₂, hstep₂⟩ := index_next howned₂ (by simp) hnextB
  have hflagsC : (vringDescFWrite &&& vringDescFNext != 0) = moreOf q₂.desc c := by
    rw [hmoreC]
    decide
  obtain ⟨q₃, e₃, hfill₃, howned₃, hframe₃, hget₃, haddr, _⟩ :=
    fillDesc_section req.statusAddr 1 howned₂ (by simp) hflagsC
  have hne : b ≠ c := by
    have hnodup : [a, b, c].Nodup :=
      owned.nodup.sublist (by simp)
    simp only [List.nodup_cons, List.mem_cons, List.not_mem_nil, or_false] at hnodup
    exact hnodup.2.1
  refine ⟨q₃, ?_, howned₃, (hframe₁.trans hframe₂).trans hframe₃, ?_, ?_⟩
  · simp only [fillChain, hfill₁, hindex₁, hstep₁, hfill₂, hindex₂, hstep₂, hfill₃, bind,
      Except.bind]
  · have hkept : q₃.desc[b.toNat]? = q₂.desc[b.toNat]? :=
      (fillDesc_frame hfill₃).desc_eq b (by simpa using hne)
    rw [hkept, hget₂, Option.map_some, hlen]
  · rw [hget₃, Option.map_some, haddr]

/-- What the first section does where it finds room: it moves three descriptors from the
free list into a chain for the device, fills them, and pushes the head of the chain. -/
theorem submit_of_room (req : Request) (owned : Owned q free chains) (hroom : 3 ≤ free.length) :
    ∃ head a b filled,
      submit q req = (filled.pushAvail head).map (fun next => (some head, next)) ∧
      Frame free q filled ∧ Owned filled (free.drop 3) ([head, a, b] :: chains) ∧
      (filled.desc[a.toNat]?).map Desc.len = some (UInt32.ofNat (sectorBytes req.n)) ∧
      (filled.desc[b.toNat]?).map Desc.addr = some req.statusAddr := by
  obtain ⟨head, rest, q₁, halloc, _, htake, howned₁⟩ := allocChain_of_le owned (by omega) hroom
  obtain ⟨a, b, rfl⟩ : ∃ a b, rest = [a, b] := by
    have hlength : (head :: rest).length = 3 := by
      rw [← htake, List.length_take, min_eq_left hroom]
    exact List.length_eq_two.mp (by simpa using hlength)
  obtain ⟨filled, hfill, howned, hframe, hlen, haddr⟩ := fillChain_of_owned req howned₁
  refine ⟨head, a, b, filled, ?_, ?_, howned, hlen, haddr⟩
  · simp only [submit, halloc, hfill, bind, Except.bind]
    cases filled.pushAvail head <;> rfl
  · have hframe₁ := allocChain_frame owned (by omega) halloc
    have hsub : [head, a, b] ⊆ free := by
      rw [← htake]
      exact List.take_subset 3 free
    exact (hframe₁.mono (List.take_subset 3 free)).trans (hframe.mono hsub)

theorem submit_of_full (req : Request) (owned : Owned q free chains) (hfull : free.length < 3) :
    submit q req = .ok (none, q) := by
  simp only [submit, allocChain_of_not_le owned (by omega) (not_and_of_not_right _ hfull.not_ge),
    bind, Except.bind]
  rfl

/-- What an answer of the first section tells about the queue. -/
theorem submit_cases (owned : Owned q free chains) {result : Option UInt16}
    (hcall : submit q req = .ok (result, next)) :
    (result = none ∧ next = q) ∨ ∃ head a b filled, result = some head ∧
      filled.pushAvail head = .ok next ∧ Frame free q filled ∧
      Owned filled (free.drop 3) ([head, a, b] :: chains) ∧
      (filled.desc[b.toNat]?).map Desc.addr = some req.statusAddr := by
  rcases lt_or_ge free.length 3 with hfull | hroom
  · rw [submit_of_full req owned hfull] at hcall
    cases hcall
    exact .inl ⟨rfl, rfl⟩
  · obtain ⟨head, a, b, filled, hsubmit, hframe, hfilled, _, haddr⟩ :=
      submit_of_room req owned hroom
    rw [hsubmit] at hcall
    cases hpush : filled.pushAvail head with
    | error fault =>
      rw [hpush] at hcall
      cases hcall
    | ok pushed =>
      rw [hpush] at hcall
      cases hcall
      exact .inr ⟨head, a, b, filled, rfl, hpush, hframe, hfilled, haddr⟩

theorem submit_of_owned (owned : Owned q free chains) {head : UInt16}
    (hcall : submit q req = .ok (some head, next)) :
    ∃ a b filled, filled.pushAvail head = .ok next ∧ Frame free q filled ∧
      Owned filled (free.drop 3) ([head, a, b] :: chains) ∧
      (filled.desc[b.toNat]?).map Desc.addr = some req.statusAddr := by
  rcases submit_cases owned hcall with ⟨hnone, _⟩ | ⟨_, a, b, filled, hsome, hrest⟩
  · cases hnone
  · cases hsome
    exact ⟨a, b, filled, hrest⟩

/-- A request that finds the queue full leaves it as it was. -/
theorem submit_full (owned : Owned q free chains) (hcall : submit q req = .ok (none, next)) :
    next = q := by
  rcases submit_cases owned hcall with ⟨_, hsame⟩ | ⟨_, _, _, _, hsome, _⟩
  · exact hsame
  · cases hsome

/-! ## The second section -/

/-- Freeing a chain one owns puts it back on the free list. -/
theorem freeChain_section {a : UInt16} {rest : List UInt16}
    (owned : Owned q free ((a :: rest) :: chains))
    (hcall : q.freeChain a q.size.toNat = .ok next) :
    Frame (a :: rest) q next ∧ Owned next ((a :: rest).reverse ++ free) chains := by
  have hfuel : (a :: rest).length ≤ q.size.toNat := owned.chain_length_le (by simp)
  obtain ⟨freed, hfreed, _, howned⟩ := freeChain_of_owned owned
  obtain rfl := Except.ok.inj ((hfreed _ hfuel).symm.trans hcall)
  exact ⟨freeChain_frame owned hfuel hcall, howned⟩

end Blk

end Hyperion.Virtio
